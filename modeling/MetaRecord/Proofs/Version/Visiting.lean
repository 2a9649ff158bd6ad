/-
# `MetaRecord.Proofs.Version.Visiting` — what a walk over an index visits

A walk hands the pairs of a blob to a visitor, one after another.  It ends at
the first pair that cannot be read, at the first failure of the visitor, or
behind the last pair that the blob declares, and pairs that were visited before
stay visited.  What a blob declares is not bounded by its length; the visits are,
because a pair takes four bytes at least.

What is there to be visited does not depend on the visitor.  `Script` says it of
a blob, in terms of encodings and without the walk: the pairs that are there,
numbered from 0, and the outcome that comes behind them.  Without a proper opening
the blob is `Refused` and there are no pairs; behind one there are those that it
`Declares`, or fewer and then an `Unreadable` one.  The walk is then the traversal
of that list.

The visitor of a walk is a function of its state.  A callback may also change
its state and fail, so the traversal is stated for callbacks, whose walk is
`Callback.walk`; the calls that it makes are those that a recording callback
finds.

Main statements: `Script.walk_eq`, by which a walk is a traversal;
`Script.decode_eq_ok_iff` and `Script.decode_eq_error_iff`; and `walk_visits`.
-/
import MetaRecord.Proofs.Version.Codec
import MetaRecord.Proofs.Version.Opening

namespace MetaRecord.Version

open MessagePack (Read ReadError EncodesBin LacksBin)

/-! ## Pairs -/

/-- The pairs stand at the front of `buf`, one after another. -/
inductive Stored : (buf : Bytes) → List (Bytes × Bytes) → (rest : Bytes) → Prop
  | nil (buf : Bytes) : Stored buf [] buf
  | cons {header metadata p q buf rest : Bytes} {pairs : List (Bytes × Bytes)} :
      EncodesBin header p → EncodesBin metadata q → Stored buf pairs rest →
      Stored (p ++ (q ++ buf)) ((header, metadata) :: pairs) rest

/-- No pair stands at the front of the bytes: one of its two byte strings is not
there. -/
inductive Unreadable : (buf : Bytes) → (cause : ReadError) → Prop
  | header {buf : Bytes} {cause : ReadError} : LacksBin buf cause → Unreadable buf cause
  | metadata {header p buf : Bytes} {cause : ReadError} :
      EncodesBin header p → LacksBin buf cause → Unreadable (p ++ buf) cause

/-- One pair. -/
def pair : Read (Bytes × Bytes) := do
  let header ← Read.bin
  let metadata ← Read.bin
  return (header, metadata)

theorem bin_of_pair {buf rest header metadata : Bytes}
    (h : pair buf = .ok ((header, metadata), rest)) :
    ∃ mid, indexed Read.bin buf = .ok (header, mid) ∧
      indexed Read.bin mid = .ok (metadata, rest) := by
  obtain ⟨_, mid, hheader, h⟩ := Read.bind_eq_ok_iff.mp h
  obtain ⟨_, _, hmetadata, h⟩ := Read.bind_eq_ok_iff.mp h
  obtain ⟨⟨⟩, rfl⟩ := Read.pure_eq_ok_iff.mp h
  exact ⟨mid, indexed_eq_ok_iff.mpr hheader, indexed_eq_ok_iff.mpr hmetadata⟩

theorem pair_eq_ok_iff {buf rest header metadata : Bytes} :
    pair buf = .ok ((header, metadata), rest) ↔
      ∃ p q, EncodesBin header p ∧ EncodesBin metadata q ∧ buf = p ++ (q ++ rest) := by
  constructor
  · intro h
    obtain ⟨mid, hheader, hmetadata⟩ := bin_of_pair h
    obtain ⟨p, hp, rfl⟩ := Read.bin_eq_ok_iff.mp (indexed_eq_ok_iff.mp hheader)
    obtain ⟨q, hq, rfl⟩ := Read.bin_eq_ok_iff.mp (indexed_eq_ok_iff.mp hmetadata)
    exact ⟨p, q, hp, hq, rfl⟩
  · rintro ⟨p, q, hp, hq, rfl⟩
    refine Read.bind_eq_ok_iff.mpr ⟨header, q ++ rest, Read.bin_eq_ok_iff.mpr ⟨p, hp, rfl⟩, ?_⟩
    exact Read.bind_eq_ok_iff.mpr ⟨metadata, rest, Read.bin_eq_ok_iff.mpr ⟨q, hq, rfl⟩, rfl⟩

theorem bin_of_pair_error {buf : Bytes} {cause : ReadError} (h : pair buf = .error cause) :
    indexed Read.bin buf = .error (.malformedIndex cause) ∨
      ∃ header mid, indexed Read.bin buf = .ok (header, mid) ∧
        indexed Read.bin mid = .error (.malformedIndex cause) := by
  rcases bind_eq_error.mp h with h | ⟨⟨header, mid⟩, hheader, h⟩
  · exact Or.inl (mapError_eq_error.mpr ⟨cause, h, rfl⟩)
  · rcases bind_eq_error.mp h with h | ⟨_, _, h⟩
    · exact Or.inr ⟨header, mid, indexed_eq_ok_iff.mpr hheader,
        mapError_eq_error.mpr ⟨cause, h, rfl⟩⟩
    · exact nomatch h

theorem pair_eq_error_iff {buf : Bytes} {cause : ReadError} :
    pair buf = .error cause ↔ Unreadable buf cause := by
  constructor
  · intro hpair
    rcases Read.bind_eq_error_iff.mp hpair with hheader | ⟨header, mid, hheader, hrest⟩
    · exact .header (Read.bin_eq_error_iff.mp hheader)
    · obtain ⟨p, hp, rfl⟩ := Read.bin_eq_ok_iff.mp hheader
      rcases Read.bind_eq_error_iff.mp hrest with hmetadata | ⟨_, _, _, h⟩
      · exact .metadata hp (Read.bin_eq_error_iff.mp hmetadata)
      · exact absurd h Read.pure_ne_error
  · intro h
    cases h with
    | header hlacks =>
        exact Read.bind_eq_error_iff.mpr (Or.inl (Read.bin_eq_error_iff.mpr hlacks))
    | metadata hp hlacks =>
        exact Read.bind_eq_error_iff.mpr (Or.inr ⟨_, _, Read.bin_eq_ok_iff.mpr ⟨_, hp, rfl⟩,
          Read.bind_eq_error_iff.mpr (Or.inl (Read.bin_eq_error_iff.mpr hlacks))⟩)

/-- Each byte string of a pair has a first byte and a length. -/
theorem Stored.length_le {buf rest : Bytes} {pairs : List (Bytes × Bytes)}
    (h : Stored buf pairs rest) : 4 * pairs.length + rest.length ≤ buf.length := by
  induction h with
  | nil buf => simp
  | cons hp hq _ ih =>
      have := hp.two_le_length
      have := hq.two_le_length
      simp only [List.length_cons, List.length_append]
      omega

/-- As many pairs as asked for can be read, or fewer and the next one cannot. -/
theorem exists_stored (n : Nat) (buf : Bytes) :
    ∃ pairs rest, Stored buf pairs rest ∧
      (pairs.length = n ∨ pairs.length < n ∧ ∃ cause, Unreadable rest cause) := by
  induction n generalizing buf with
  | zero => exact ⟨[], buf, .nil buf, Or.inl rfl⟩
  | succ n ih =>
      cases hpair : pair buf with
      | error cause =>
          exact ⟨[], buf, .nil buf,
            Or.inr ⟨Nat.zero_lt_succ n, cause, pair_eq_error_iff.mp hpair⟩⟩
      | ok found =>
          obtain ⟨⟨header, metadata⟩, mid⟩ := found
          obtain ⟨p, q, hp, hq, rfl⟩ := pair_eq_ok_iff.mp hpair
          obtain ⟨pairs, rest, hstored, hend⟩ := ih mid
          refine ⟨_ :: pairs, rest, .cons hp hq hstored, ?_⟩
          rw [List.length_cons]
          exact hend.imp (congrArg _) fun ⟨hlt, hcause⟩ => ⟨Nat.succ_lt_succ hlt, hcause⟩

/-! ## Callbacks -/

/-- A pair that is handed over, with its position. -/
abbrev Call := (Bytes × Bytes) × Nat

/-- What is called for each pair.  It may change its state and fail. -/
abbrev Callback (σ : Type) :=
  (index : Nat) → (header metadata : Bytes) → ExceptT DecodeError (StateM σ) Unit

namespace Callback

variable {σ : Type}

/-- A visitor, which changes nothing when it fails. -/
def ofVisitor (visit : Visitor σ) : Callback σ := fun index header metadata state =>
  match visit index header metadata state with
  | .ok state' => (.ok (), state')
  | .error e => (.error e, state)

def on (f : Callback σ) (call : Call) : ExceptT DecodeError (StateM σ) Unit :=
  f call.2 call.1.1 call.1.2

/-- The same callback with its calls written down, first one first. -/
def recorded (f : Callback σ) : Callback (σ × List Call) := fun index header metadata state =>
  let (outcome, state') := f index header metadata state.1
  (outcome, (state', state.2 ++ [((header, metadata), index)]))

/-- Call for `n` pairs from the position `index` on. -/
def pairs (f : Callback σ) : (n index : Nat) → Bytes → ExceptT DecodeError (StateM σ) Unit
  | 0, _, _ => return ()
  | n + 1, index, buf => do
    let (header, buf) ← indexed Read.bin buf
    let (metadata, buf) ← indexed Read.bin buf
    f index header metadata
    f.pairs n (index + 1) buf

/-- Walk an index blob. -/
def walk (f : Callback σ) (blob : Bytes) : ExceptT DecodeError (StateM σ) Revisions := do
  let ((revisions, count), rest) ← opening blob
  f.pairs count 0 rest
  return revisions

section Pairs

variable {header metadata buf rest : Bytes} {cause : ReadError}

theorem pairs_of_ok (f : Callback σ) (h : pair buf = .ok ((header, metadata), rest))
    (n index : Nat) :
    f.pairs (n + 1) index buf = f index header metadata >>= fun _ => f.pairs n (index + 1) rest := by
  obtain ⟨mid, hheader, hmetadata⟩ := bin_of_pair h
  rw [pairs, hheader]
  show ((liftM (indexed Read.bin mid) : ExceptT DecodeError (StateM σ) _) >>= _) = _
  rw [hmetadata]
  rfl

theorem pairs_of_error (f : Callback σ) (h : pair buf = .error cause) (n index : Nat) :
    f.pairs (n + 1) index buf = throw (.malformedIndex cause) := by
  rcases bin_of_pair_error h with hheader | ⟨header, mid, hheader, hmetadata⟩
  · rw [pairs, hheader]
    rfl
  · rw [pairs, hheader]
    show ((liftM (indexed Read.bin mid) : ExceptT DecodeError (StateM σ) _) >>= _) = _
    rw [hmetadata]
    rfl

theorem visitPairs_of_ok {visit : Visitor σ} {index : Nat} {state state' : σ}
    (h : pair buf = .ok ((header, metadata), rest))
    (hvisit : visit index header metadata state = .ok state') (n : Nat) :
    visitPairs visit (n + 1) index state buf = visitPairs visit n (index + 1) state' rest := by
  obtain ⟨mid, hheader, hmetadata⟩ := bin_of_pair h
  simp only [visitPairs, hheader, hmetadata, hvisit]

theorem visitPairs_of_failure {visit : Visitor σ} {index : Nat} {state : σ} {e : DecodeError}
    (h : pair buf = .ok ((header, metadata), rest))
    (hvisit : visit index header metadata state = .error e) (n : Nat) :
    visitPairs visit (n + 1) index state buf = (.error e, state) := by
  obtain ⟨mid, hheader, hmetadata⟩ := bin_of_pair h
  simp only [visitPairs, hheader, hmetadata, hvisit]

theorem visitPairs_of_error (visit : Visitor σ) (h : pair buf = .error cause) (n index : Nat)
    (state : σ) :
    visitPairs visit (n + 1) index state buf = (.error (.malformedIndex cause), state) := by
  rcases bin_of_pair_error h with hheader | ⟨header, mid, hheader, hmetadata⟩
  · rw [visitPairs, hheader]
  · simp only [visitPairs, hheader, hmetadata]

end Pairs

theorem pairs_ofVisitor (visit : Visitor σ) (n index : Nat) (state : σ) (buf : Bytes) :
    visitPairs visit n index state buf = (ofVisitor visit).pairs n index buf state := by
  induction n generalizing index state buf with
  | zero => rfl
  | succ n ih =>
      cases hpair : pair buf with
      | error cause =>
          rw [visitPairs_of_error visit hpair, pairs_of_error _ hpair]
          rfl
      | ok found =>
          obtain ⟨⟨header, metadata⟩, rest⟩ := found
          rw [pairs_of_ok _ hpair]
          cases hvisit : visit index header metadata state with
          | error e =>
              have hfail : ofVisitor visit index header metadata state = (.error e, state) := by
                rw [ofVisitor, hvisit]
              refine (visitPairs_of_failure hpair hvisit n).trans ?_
              exact (run_bind_eq_error (x := ofVisitor visit index header metadata)
                |>.mpr (Or.inl hfail)).symm
          | ok state' =>
              have hgood : ofVisitor visit index header metadata state = (.ok (), state') := by
                rw [ofVisitor, hvisit]
              refine ((visitPairs_of_ok hpair hvisit n).trans (ih (index + 1) state' rest)).trans ?_
              exact (run_bind_of_ok (x := ofVisitor visit index header metadata)
                (f := fun _ => (ofVisitor visit).pairs n (index + 1) rest) hgood).symm

theorem walk_ofVisitor (visit : Visitor σ) (blob : Bytes) (state : σ) :
    Version.walk blob visit state = (ofVisitor visit).walk blob state := by
  rw [Version.walk, walk]
  cases opening blob with
  | error e => rfl
  | ok found =>
      obtain ⟨⟨revisions, count⟩, rest⟩ := found
      dsimp only
      rw [pairs_ofVisitor]
      show _ = ((ofVisitor visit).pairs count 0 rest >>= fun _ => pure revisions) state
      cases hpairs : (ofVisitor visit).pairs count 0 rest state with
      | mk outcome state' =>
          cases outcome with
          | error e => exact (run_bind_eq_error.mpr (Or.inl hpairs)).symm
          | ok _ => exact (run_bind_of_ok (f := fun _ => pure revisions) hpairs).symm

/-- For pairs that are stored one after another, the calls come one after
another. -/
theorem pairs_stored (f : Callback σ) {buf rest : Bytes} {ps : List (Bytes × Bytes)}
    (h : Stored buf ps rest) (k index : Nat) :
    f.pairs (ps.length + k) index buf =
      (ps.zipIdx index).forM f.on >>= fun _ => f.pairs k (index + ps.length) rest := by
  induction h generalizing index with
  | nil buf =>
      rw [List.length_nil, Nat.zero_add]
      rfl
  | @cons header metadata p q buf rest ps hp hq _ ih =>
      have hpair : pair (p ++ (q ++ buf)) = .ok ((header, metadata), buf) :=
        pair_eq_ok_iff.mpr ⟨p, q, hp, hq, rfl⟩
      rw [List.length_cons, Nat.add_right_comm, pairs_of_ok f hpair, ih, List.zipIdx_cons,
        Nat.add_right_comm index 1 ps.length]
      show _ = (f index header metadata >>= fun _ => (ps.zipIdx (index + 1)).forM f.on) >>= _
      rw [bind_assoc]
      rfl

end Callback

/-! ## What there is to visit -/

/-- What a walk comes across, whoever visits: the pairs that are there, and the
outcome behind them. -/
inductive Script (blob : Bytes) : List Call → Except DecodeError Revisions → Prop
  | refused {e : DecodeError} : Refused blob e → Script blob [] (.error e)
  | complete {revisions : Revisions} {buf rest : Bytes} {pairs : List (Bytes × Bytes)} :
      Declares blob revisions pairs.length buf → Stored buf pairs rest →
      Script blob pairs.zipIdx (.ok revisions)
  | unreadable {revisions : Revisions} {count : Nat} {buf rest : Bytes}
      {pairs : List (Bytes × Bytes)} {cause : ReadError} :
      Declares blob revisions count buf → Stored buf pairs rest → pairs.length < count →
      Unreadable rest cause → Script blob pairs.zipIdx (.error (.malformedIndex cause))

theorem exists_script (blob : Bytes) : ∃ stored ending, Script blob stored ending := by
  by_cases hrefused : ∃ e, Refused blob e
  · obtain ⟨e, he⟩ := hrefused
    exact ⟨_, _, .refused he⟩
  · obtain ⟨revisions, count, buf, hdeclares⟩ := exists_declares_iff.mpr hrefused
    obtain ⟨pairs, rest, hstored, rfl | ⟨hlt, cause, hcause⟩⟩ := exists_stored count buf
    · exact ⟨_, _, .complete hdeclares hstored⟩
    · exact ⟨_, _, .unreadable hdeclares hstored hlt hcause⟩

namespace Script

variable {blob : Bytes} {stored : List Call} {ending : Except DecodeError Revisions} {σ : Type}

theorem length_le (h : Script blob stored ending) : stored.length ≤ blob.length / 4 := by
  have hdeclared {revisions : Revisions} {count : Nat} {buf : Bytes}
      (h : Declares blob revisions count buf) : buf.length ≤ blob.length := by
    cases h with
    | intro _ _ _ _ _ _ =>
        simp only [List.length_append]
        omega
  cases h with
  | refused _ => exact Nat.zero_le _
  | complete hd hs | unreadable hd hs _ _ =>
      have := hdeclared hd
      have := hs.length_le
      rw [List.length_zipIdx]
      omega

/-- A walk is the traversal of what is there, and ends as the blob says. -/
theorem walk_eq (h : Script blob stored ending) (f : Callback σ) :
    f.walk blob = stored.forM f.on >>= fun _ => liftM ending := by
  rw [Callback.walk]
  cases h with
  | refused hrefused =>
      rw [opening_eq_error_iff.mpr hrefused]
      rfl
  | @complete revisions buf rest pairs hd hs =>
      rw [opening_eq_ok_iff.mpr hd]
      show (f.pairs pairs.length 0 buf >>= fun _ => pure revisions) = _
      have hpairs := f.pairs_stored hs 0 0
      rw [Nat.add_zero] at hpairs
      rw [hpairs, bind_assoc]
      rfl
  | @unreadable revisions count buf rest pairs cause hd hs hlt hcause =>
      obtain ⟨k, rfl⟩ := Nat.exists_eq_add_of_lt hlt
      rw [opening_eq_ok_iff.mpr hd]
      show (f.pairs (pairs.length + (k + 1)) 0 buf >>= fun _ => pure revisions) = _
      rw [f.pairs_stored hs, f.pairs_of_error (pair_eq_error_iff.mpr hcause), bind_assoc]
      rfl

end Script

/-! ## The calls of a traversal -/

namespace Callback

variable {σ : Type} {f : Callback σ} {calls : List Call} {s s' : σ}

/-- Every call succeeds, or there is a first one that fails. -/
theorem forM_cases (f : Callback σ) (calls : List Call) (s : σ) :
    (∃ s', calls.forM f.on s = (.ok (), s')) ∨
      ∃ before c after e s₁ s', calls = before ++ c :: after ∧
        before.forM f.on s = (.ok (), s₁) ∧ f.on c s₁ = (.error e, s') := by
  induction calls generalizing s with
  | nil => exact Or.inl ⟨s, rfl⟩
  | cons c calls ih =>
      cases hc : f.on c s with
      | mk outcome s₁ =>
          cases outcome with
          | error e => exact Or.inr ⟨[], c, calls, e, s, s₁, rfl, rfl, hc⟩
          | ok _ =>
              have hcons (cs : List Call) : (c :: cs).forM f.on s = cs.forM f.on s₁ :=
                run_bind_of_ok (f := fun _ => cs.forM f.on) hc
              rcases ih s₁ with ⟨s', hall⟩ | ⟨before, d, after, e, s₂, s', rfl, hbefore, hd⟩
              · exact Or.inl ⟨s', (hcons calls).trans hall⟩
              · exact Or.inr ⟨c :: before, d, after, e, s₂, s', rfl,
                  (hcons before).trans hbefore, hd⟩

/-- Calls that follow on calls that succeeded. -/
theorem forM_append (h : calls.forM f.on s = (.ok (), s')) (more : List Call) :
    (calls ++ more).forM f.on s = more.forM f.on s' := by
  have happend : (calls ++ more).forM f.on = calls.forM f.on >>= fun _ => more.forM f.on :=
    List.forM_append
  rw [happend]
  exact run_bind_of_ok h

theorem recorded_on (f : Callback σ) (c : Call) (s : σ) (made : List Call) :
    f.recorded.on c (s, made) = ((f.on c s).1, ((f.on c s).2, made ++ [c])) := rfl

theorem forM_recorded (h : calls.forM f.on s = (.ok (), s')) (made : List Call) :
    calls.forM f.recorded.on (s, made) = (.ok (), (s', made ++ calls)) := by
  induction calls generalizing s made with
  | nil =>
      obtain ⟨-, rfl⟩ := Prod.mk.inj h
      rw [List.append_nil]
      rfl
  | cons c calls ih =>
      obtain ⟨_, s₁, hc, hcalls⟩ := run_bind_eq_ok.mp h
      have hrecorded : f.recorded.on c (s, made) = (.ok (), (s₁, made ++ [c])) := by
        rw [recorded_on, show f.on c s = _ from hc]
      have hmore := ih hcalls (made ++ [c])
      rw [List.append_assoc] at hmore
      exact (run_bind_of_ok hrecorded).trans hmore

end Callback

/-- The walk makes the calls that are there up to the first one that fails, whose
failure it returns; if none fails it ends as the blob says. -/
theorem Script.visits {blob : Bytes} {stored : List Call} {ending : Except DecodeError Revisions}
    (h : Script blob stored ending) {σ : Type} (f : Callback σ) (s : σ) :
    ∃ made outcome s', f.walk blob s = (outcome, s') ∧
      f.recorded.walk blob (s, []) = (outcome, (s', made)) ∧
      ((made = stored ∧ stored.forM f.on s = (.ok (), s') ∧ outcome = ending) ∨
        ∃ before c after e s₁, stored = before ++ c :: after ∧ made = before ++ [c] ∧
          before.forM f.on s = (.ok (), s₁) ∧ f.on c s₁ = (.error e, s') ∧
          outcome = .error e) := by
  rw [h.walk_eq, h.walk_eq]
  rcases f.forM_cases stored s with
    ⟨s', hall⟩ | ⟨before, c, after, e, s₁, s', rfl, hbefore, hc⟩
  · have hrecorded := Callback.forM_recorded hall []
    exact ⟨stored, ending, s', run_bind_of_ok (f := fun _ => liftM ending) hall,
      run_bind_of_ok (f := fun _ => liftM ending) hrecorded, Or.inl ⟨rfl, hall, rfl⟩⟩
  · have hcalls : (before ++ c :: after).forM f.on s = (.error e, s') :=
      (Callback.forM_append hbefore _).trans (run_bind_eq_error.mpr (Or.inl hc))
    have hrecorded : (before ++ c :: after).forM f.recorded.on (s, [])
        = (.error e, (s', before ++ [c])) := by
      refine (Callback.forM_append (Callback.forM_recorded hbefore []) _).trans ?_
      refine run_bind_eq_error.mpr (Or.inl ?_)
      show f.recorded.on c (s₁, before) = _
      rw [Callback.recorded_on, hc]
    refine ⟨before ++ [c], .error e, s', ?_, ?_,
      Or.inr ⟨before, c, after, e, s₁, rfl, rfl, hbefore, hc, rfl⟩⟩
    · exact run_bind_eq_error.mpr (Or.inl hcalls)
    · exact run_bind_eq_error.mpr (Or.inl hrecorded)

/-! ## Decoding -/

/-- The entry is what the call hands over, its header decoded. -/
structure Delivers (call : Call) (e : Entry) : Prop where
  header : Header.decode call.1.1 = .ok e.header
  headerBytes : e.headerBytes = call.1.1
  metadata : e.metadata = call.1.2

theorem Delivers.intro {call : Call} {header : Header} (h : Header.decode call.1.1 = .ok header) :
    Delivers call ⟨header, call.1.1, call.1.2⟩ := ⟨h, rfl, rfl⟩

/-- Every header decodes, or there is a first one that does not. -/
theorem delivers_cases (calls : List Call) :
    (∃ es, List.Forall₂ Delivers calls es) ∨
      ∃ before c after e, calls = before ++ c :: after ∧ (∃ es, List.Forall₂ Delivers before es) ∧
        Header.decode c.1.1 = .error e := by
  induction calls with
  | nil => exact Or.inl ⟨[], .nil⟩
  | cons c calls ih =>
      cases hc : Header.decode c.1.1 with
      | error e => exact Or.inr ⟨[], c, calls, e, rfl, ⟨[], .nil⟩, hc⟩
      | ok header =>
          rcases ih with ⟨es, hes⟩ | ⟨before, d, after, e, rfl, ⟨es, hes⟩, hd⟩
          · exact Or.inl ⟨_ :: es, .cons (.intro hc) hes⟩
          · exact Or.inr ⟨c :: before, d, after, e, rfl, ⟨_ :: es, .cons (.intro hc) hes⟩, hd⟩

theorem exists_delivers_iff {calls : List Call} :
    (∃ es, List.Forall₂ Delivers calls es) ↔
      ∀ c ∈ calls, ∃ header, Header.decode c.1.1 = .ok header := by
  constructor
  · rintro ⟨es, hes⟩
    induction hes with
    | nil => exact fun c hc => absurd hc List.not_mem_nil
    | @cons c e calls es hce _ ih =>
        intro d hd
        rcases List.mem_cons.mp hd with rfl | hd
        · exact ⟨_, hce.header⟩
        · exact ih d hd
  · intro hall
    rcases delivers_cases calls with hes | ⟨before, c, after, e, rfl, -, hc⟩
    · exact hes
    · obtain ⟨header, hheader⟩ := hall c (by simp)
      exact nomatch hc.symm.trans hheader

/-- The visitor of a decoding, as a callback. -/
def collecting : Callback (List Entry) := .ofVisitor Index.collect

theorem collecting_on (c : Call) (es : List Entry) :
    collecting.on c es =
      match Header.decode c.1.1 with
      | .ok header => (.ok (), ⟨header, c.1.1, c.1.2⟩ :: es)
      | .error e => (.error e, es) := by
  show Callback.ofVisitor Index.collect c.2 c.1.1 c.1.2 es = _
  rw [Callback.ofVisitor, Index.collect]
  cases Header.decode c.1.1 <;> rfl

theorem forM_collecting {calls : List Call} {es : List Entry} (h : List.Forall₂ Delivers calls es)
    (read : List Entry) : calls.forM collecting.on read = (.ok (), es.reverse ++ read) := by
  induction h generalizing read with
  | nil => rfl
  | @cons c e calls es hce _ ih =>
      have hc : collecting.on c read = (.ok (), e :: read) := by
        obtain ⟨header, headerBytes, metadata⟩ := e
        obtain ⟨hheader, rfl, rfl⟩ := hce
        rw [collecting_on, hheader]
      rw [List.reverse_cons, List.append_assoc]
      exact (run_bind_of_ok (f := fun _ => calls.forM collecting.on) hc).trans (ih (e :: read))

namespace Script

variable {blob : Bytes} {stored : List Call} {ending : Except DecodeError Revisions}

theorem decode_eq (h : Script blob stored ending) :
    Index.decode blob =
      let (outcome, read) := (stored.forM collecting.on >>= fun _ => liftM ending) []
      outcome.map fun revisions => ⟨revisions, read.reverse⟩ := by
  rw [Index.decode, Callback.walk_ofVisitor, h.walk_eq]
  rfl

theorem decode_of_delivers (h : Script blob stored ending) {es : List Entry}
    (hes : List.Forall₂ Delivers stored es) :
    Index.decode blob = ending.map fun revisions => ⟨revisions, es⟩ := by
  have hread : (stored.forM collecting.on >>= fun _ => liftM ending) [] = (ending, es.reverse) := by
    refine (run_bind_of_ok (f := fun _ => liftM ending) (forM_collecting hes [])).trans ?_
    rw [List.append_nil]
    rfl
  rw [h.decode_eq, hread]
  dsimp only
  rw [List.reverse_reverse]

theorem decode_of_error (h : Script blob stored ending) {before after : List Call} {c : Call}
    {es : List Entry} {e : DecodeError} (hstored : stored = before ++ c :: after)
    (hes : List.Forall₂ Delivers before es) (hc : Header.decode c.1.1 = .error e) :
    Index.decode blob = .error e := by
  have hfail : collecting.on c (es.reverse ++ []) = (.error e, es.reverse ++ []) := by
    rw [collecting_on, hc]
  have hcalls : stored.forM collecting.on [] = (.error e, es.reverse ++ []) := by
    rw [hstored]
    exact (Callback.forM_append (forM_collecting hes []) _).trans
      (run_bind_eq_error.mpr (Or.inl hfail))
  have hread : (stored.forM collecting.on >>= fun _ => liftM ending) [] = (.error e, _) :=
    run_bind_eq_error.mpr (Or.inl hcalls)
  rw [h.decode_eq, hread]
  rfl

/-- Decoding succeeds when the walk does and every header decodes. -/
theorem decode_eq_ok_iff (h : Script blob stored ending) {index : Index} :
    Index.decode blob = .ok index ↔
      ending = .ok index.revisions ∧ List.Forall₂ Delivers stored index.entries := by
  constructor
  · intro hdecode
    rcases delivers_cases stored with
      ⟨es, hes⟩ | ⟨before, c, after, e, hstored, ⟨es, hes⟩, hc⟩
    · rw [h.decode_of_delivers hes] at hdecode
      cases ending with
      | error e => exact nomatch hdecode
      | ok revisions =>
          obtain rfl := Except.ok.inj hdecode
          exact ⟨rfl, hes⟩
    · exact nomatch hdecode.symm.trans (h.decode_of_error hstored hes hc)
  · rintro ⟨rfl, hes⟩
    rw [h.decode_of_delivers hes]
    rfl

/-- Otherwise the failure is that of the first position where there is one. -/
theorem decode_eq_error_iff (h : Script blob stored ending) {e : DecodeError} :
    Index.decode blob = .error e ↔
      (ending = .error e ∧ ∀ c ∈ stored, ∃ header, Header.decode c.1.1 = .ok header) ∨
        ∃ before c after, stored = before ++ c :: after ∧
          (∀ b ∈ before, ∃ header, Header.decode b.1.1 = .ok header) ∧
          Header.decode c.1.1 = .error e := by
  constructor
  · intro hdecode
    rcases delivers_cases stored with
      ⟨es, hes⟩ | ⟨before, c, after, e', hstored, ⟨es, hes⟩, hc⟩
    · rw [h.decode_of_delivers hes] at hdecode
      cases ending with
      | ok revisions => exact nomatch hdecode
      | error e' =>
          obtain rfl := Except.error.inj hdecode
          exact Or.inl ⟨rfl, exists_delivers_iff.mp ⟨es, hes⟩⟩
    · obtain rfl := Except.error.inj (hdecode.symm.trans (h.decode_of_error hstored hes hc))
      exact Or.inr ⟨before, c, after, hstored, exists_delivers_iff.mp ⟨es, hes⟩, hc⟩
  · rintro (⟨rfl, hall⟩ | ⟨before, c, after, hstored, hbefore, hc⟩)
    · obtain ⟨es, hes⟩ := exists_delivers_iff.mpr hall
      rw [h.decode_of_delivers hes]
      rfl
    · obtain ⟨es, hes⟩ := exists_delivers_iff.mpr hbefore
      exact h.decode_of_error hstored hes hc

end Script

/-! ## A walk and what it visits -/

/-- A visitor that writes down what it is called for, and never fails. -/
def noting : Visitor (List Call) := fun index header metadata calls =>
  .ok (calls ++ [((header, metadata), index)])

theorem forM_noting (calls made : List Call) :
    calls.forM (Callback.ofVisitor noting).on made = (.ok (), made ++ calls) := by
  induction calls generalizing made with
  | nil =>
      rw [List.append_nil]
      rfl
  | cons c calls ih =>
      refine (ih (made ++ [c])).trans ?_
      rw [List.append_assoc]
      rfl

theorem Script.walk_noting {blob : Bytes} {stored : List Call}
    {ending : Except DecodeError Revisions} (h : Script blob stored ending) :
    walk blob noting [] = (ending, stored) := by
  rw [Callback.walk_ofVisitor, h.walk_eq]
  exact run_bind_of_ok (f := fun _ => liftM ending) (forM_noting stored [])

/-- For every blob there is one list of pairs to be visited, in stored order and
numbered from 0, with one outcome behind it, and a fourth of the blob's bytes
bounds its length.  Every callback is called for these pairs up to the first
failure, which the walk returns; without one it returns that outcome.  Decoding
succeeds exactly when that outcome is no failure and every header decodes, and
otherwise fails for the first position that does. -/
theorem walk_visits (blob : Bytes) :
    ∃ stored ending, Script blob stored ending ∧ walk blob noting [] = (ending, stored) ∧
      (∀ {σ : Type} (visit : Visitor σ) (s : σ),
        walk blob visit s = (Callback.ofVisitor visit).walk blob s) ∧
      (∀ {σ : Type} (f : Callback σ) (s : σ), ∃ made outcome s',
        f.walk blob s = (outcome, s') ∧ f.recorded.walk blob (s, []) = (outcome, (s', made)) ∧
          made.length ≤ blob.length / 4 ∧
          ((made = stored ∧ stored.forM f.on s = (.ok (), s') ∧ outcome = ending) ∨
            ∃ before c after e s₁, stored = before ++ c :: after ∧ made = before ++ [c] ∧
              before.forM f.on s = (.ok (), s₁) ∧ f.on c s₁ = (.error e, s') ∧
              outcome = .error e)) ∧
      (∀ index, Index.decode blob = .ok index ↔
        ending = .ok index.revisions ∧ List.Forall₂ Delivers stored index.entries) ∧
      ∀ e, Index.decode blob = .error e ↔
        (ending = .error e ∧ ∀ c ∈ stored, ∃ header, Header.decode c.1.1 = .ok header) ∨
          ∃ before c after, stored = before ++ c :: after ∧
            (∀ b ∈ before, ∃ header, Header.decode b.1.1 = .ok header) ∧
            Header.decode c.1.1 = .error e := by
  obtain ⟨stored, ending, h⟩ := exists_script blob
  refine ⟨stored, ending, h, h.walk_noting, fun visit s => Callback.walk_ofVisitor visit blob s,
    fun f s => ?_, fun index => h.decode_eq_ok_iff, fun e => h.decode_eq_error_iff⟩
  obtain ⟨made, outcome, s', hwalk, hrecorded, hcalls⟩ := h.visits f s
  refine ⟨made, outcome, s', hwalk, hrecorded, Nat.le_trans ?_ h.length_le, hcalls⟩
  rcases hcalls with ⟨rfl, -, -⟩ | ⟨before, c, after, e, s₁, rfl, rfl, -, -, -⟩
  · exact Nat.le_refl _
  · simp

/-- Of three declared pairs the second is cut: the first is visited. -/
example : walk [2, 2, 3, 0xc4, 1, 7, 0xc4, 1, 8, 0xc4, 1, 9] noting [] =
    (.error (.malformedIndex (.short 1 0)), [(([7], [8]), 0)]) := by rfl

end MetaRecord.Version
