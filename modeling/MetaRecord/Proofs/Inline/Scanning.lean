/-
# `MetaRecord.Proofs.Inline.Scanning` — checking a store is scanning it

A store is checked once, when it is parsed, and read again each time its
entries are asked for.  The second pass has nowhere to report a failure: an
entry that it could not read would be missing, and nobody would know.  That is
safe only if both passes are the one that `Scan.next` makes, call by call.

A scan gives entries, call after call, until a call that gives none or fails,
and from there on nothing.  `Yields` follows the calls that give entries.  The
loop over whole stores, `readEntries`, finds those entries and the outcome of
the call behind them, on any bytes and for any count that they declare.

Main statements: `Scan.next_call`, what one call does; `Scan.Yields.keeps`,
what a run of calls keeps; `scanAll_of_yields`; and `parse_scans`.
-/
import MetaRecord.Proofs.Inline.Codec

namespace MetaRecord.Inline

open MessagePack (Read)

namespace Scan

variable {s t : Scan} {es : List Entry} {e : Entry} {cause : DecodeError}

/-! ## One call -/

/-- There is nothing left to be read. -/
def Ended (s : Scan) : Prop := s.failed = true ∨ s.remaining = 0

/-- What a call gives and the scan behind it.  A scan that is over gives nothing
and stays as it is; any other reads an entry, and moves on if it can. -/
inductive Call (s : Scan) : Option (Except DecodeError Entry) × Scan → Prop
  | ended : s.Ended → Call s (none, s)
  | entry {n : Nat} {e : Entry} {rest : Bytes} : s.failed = false → s.remaining = n + 1 →
      readEntry s.index s.rest = .ok (e, rest) →
      Call s (some (.ok e), ⟨rest, s.index + 1, n, false⟩)
  | failure {cause : DecodeError} : s.failed = false → s.remaining ≠ 0 →
      readEntry s.index s.rest = .error cause →
      Call s (some (.error cause), { s with failed := true })

theorem next_call (s : Scan) : Call s s.next := by
  obtain ⟨rest, index, remaining, failed⟩ := s
  cases failed with
  | true => exact .ended (Or.inl rfl)
  | false =>
      cases remaining with
      | zero => exact .ended (Or.inr rfl)
      | succ n =>
          cases hread : readEntry index rest with
          | ok p =>
              have hnext : next ⟨rest, index, n + 1, false⟩
                  = (some (.ok p.1), ⟨p.2, index + 1, n, false⟩) := by simp [next, hread]
              rw [hnext]
              exact .entry rfl rfl hread
          | error cause =>
              have hnext : next ⟨rest, index, n + 1, false⟩
                  = (some (.error cause), ⟨rest, index, n + 1, true⟩) := by simp [next, hread]
              rw [hnext]
              exact .failure rfl (Nat.succ_ne_zero n) hread

theorem call_of_next {p : Option (Except DecodeError Entry) × Scan} (h : s.next = p) :
    Call s p := h ▸ s.next_call

theorem next_of_ended (h : s.Ended) : s.next = (none, s) := by
  rw [next]
  rcases h with hfailed | hremaining
  · rw [if_pos hfailed]
  · rw [hremaining]
    split <;> rfl

/-- What the calls give, the first one numbered 0. -/
def item (s : Scan) : Nat → Option (Except DecodeError Entry)
  | 0 => s.next.1
  | k + 1 => s.next.2.item k

theorem item_of_ended (h : s.Ended) (k : Nat) : s.item k = none := by
  induction k with
  | zero => rw [item, next_of_ended h]
  | succ k ih => rw [item, next_of_ended h, ih]

theorem ended_of_next_none (h : s.next = (none, t)) : t.Ended ∧ t = s := by
  cases call_of_next h with
  | ended hended => exact ⟨hended, rfl⟩

theorem ended_of_next_error (h : s.next = (some (.error cause), t)) :
    t.Ended ∧ t.remaining = s.remaining ∧ readEntry s.index s.rest = .error cause := by
  cases call_of_next h with
  | failure _ _ hread => exact ⟨Or.inl rfl, rfl, hread⟩

theorem remaining_of_next_ok (h : s.next = (some (.ok e), t)) :
    t.remaining + 1 = s.remaining := by
  cases call_of_next h with
  | entry _ hremaining _ => exact hremaining.symm

/-! ## Runs of calls -/

/-- Each of the calls from `s` to `t` gave an entry, and these are the entries. -/
inductive Yields : Scan → List Entry → Scan → Prop
  | nil (s : Scan) : Yields s [] s
  | cons {s t u : Scan} {e : Entry} {es : List Entry} :
      s.next = (some (.ok e), t) → Yields t es u → Yields s (e :: es) u

/-- Every entry is counted, and none comes from a scan that failed. -/
theorem Yields.keeps (h : s.Yields es t) :
    t.index = s.index + es.length ∧ t.remaining + es.length = s.remaining ∧
      t.failed = s.failed := by
  induction h with
  | nil s => exact ⟨rfl, rfl, rfl⟩
  | cons hnext _ ih =>
      obtain ⟨hindex, hremaining, hfailed⟩ := ih
      cases call_of_next hnext with
      | entry hgood hleft _ =>
          dsimp only at hindex hremaining hfailed
          rw [List.length_cons, hgood, hleft]
          exact ⟨by omega, by omega, hfailed⟩

/-- Every scan comes to a call that gives no entry. -/
theorem exists_yields (s : Scan) :
    ∃ es t, s.Yields es t ∧ ∃ failure : Option DecodeError, t.next.1 = failure.map .error := by
  induction hn : s.remaining generalizing s with
  | zero =>
      refine ⟨[], s, .nil s, none, ?_⟩
      rw [next_of_ended (Or.inr hn)]
      rfl
  | succ n ih =>
      cases hnext : s.next with
      | mk given t =>
          cases call_of_next hnext with
          | ended _ => exact ⟨[], s, .nil s, none, by rw [hnext]; rfl⟩
          | failure _ _ _ => exact ⟨[], s, .nil s, some _, by rw [hnext]; rfl⟩
          | @entry m e rest _ hleft _ =>
              obtain ⟨es, u, hes, hend⟩ :=
                ih ⟨rest, s.index + 1, m, false⟩ (Nat.succ.inj (hleft.symm.trans hn))
              exact ⟨e :: es, u, .cons hnext hes, hend⟩

/-- The loop takes the same entries. -/
theorem Yields.readEntries (h : s.Yields es t) (acc : List Entry) :
    readEntries s.remaining s.index acc s.rest
      = readEntries t.remaining t.index (es.reverse ++ acc) t.rest := by
  induction h generalizing acc with
  | nil s => rfl
  | @cons s t u e es hnext _ ih =>
      cases call_of_next hnext with
      | entry _ hleft hread =>
          rw [hleft, Inline.readEntries, hread, List.reverse_cons, List.append_assoc]
          exact ih (e :: acc)

/-- Where no entry comes, the loop ends as the call does. -/
theorem readEntries_of_next {failure : Option DecodeError} (hgood : s.failed = false)
    (hend : s.next.1 = failure.map .error) (acc : List Entry) :
    readEntries s.remaining s.index acc s.rest = ⟨acc.reverse, failure⟩ := by
  cases hnext : s.next with
  | mk given t =>
      rw [hnext] at hend
      cases call_of_next hnext with
      | ended hended =>
          obtain rfl : failure = none := Option.map_eq_none_iff.mp hend.symm
          rcases hended with hfailed | hremaining
          · exact absurd (hfailed.symm.trans hgood) (by decide)
          · rw [hremaining, readEntries]
      | @failure cause _ hleft hread =>
          obtain ⟨_, rfl, ⟨⟩⟩ := Option.map_eq_some_iff.mp hend.symm
          obtain ⟨n, hn⟩ := Nat.exists_eq_succ_of_ne_zero hleft
          rw [hn, Inline.readEntries, hread]
      | entry _ _ _ =>
          obtain ⟨_, -, hne⟩ := Option.map_eq_some_iff.mp hend.symm
          cases hne

end Scan

/-! ## Whole stores -/

/-- A scan starts in front of the first entry. -/
theorem Scan.of_start {buf : Bytes} {s : Scan} (h : Scan.start buf = .ok s) :
    s.failed = false ∧ s.index = 0 := by
  dsimp only [Scan.start] at h
  split at h
  · obtain rfl := Except.ok.inj h
    exact ⟨rfl, rfl⟩
  · split at h
    · obtain rfl := Except.ok.inj h
      exact ⟨rfl, rfl⟩
    · split at h
      · obtain ⟨⟨count, rest⟩, -, h⟩ := bind_eq_ok.mp h
        obtain rfl := Except.ok.inj h
        exact ⟨rfl, rfl⟩
      · exact nomatch h

theorem scanAll_of_start {buf : Bytes} {cause : DecodeError} (h : Scan.start buf = .error cause) :
    scanAll buf = ⟨[], some cause⟩ := by
  rw [scanAll, h]

/-- What is found in a store's bytes are the entries of the calls that give one,
and the outcome of the call behind them. -/
theorem scanAll_of_yields {buf : Bytes} {s t : Scan} {es : List Entry}
    {failure : Option DecodeError} (hstart : Scan.start buf = .ok s) (hes : s.Yields es t)
    (hend : t.next.1 = failure.map .error) : scanAll buf = ⟨es, failure⟩ := by
  have hgood : t.failed = false := hes.keeps.2.2.trans (Scan.of_start hstart).1
  rw [scanAll, hstart]
  dsimp only
  rw [hes.readEntries, Scan.readEntries_of_next hgood hend, List.append_nil, List.reverse_reverse]

/-- Only a key that is empty is reported as one, at the position it has. -/
theorem index_of_emptyInlineKey {i j : Nat} {buf : Bytes}
    (h : readEntry i buf = .error (.emptyInlineKey j)) : j = i := by
  have hinlined {α : Type} {r : Read α} {buf : Bytes} :
      inlined r buf ≠ .error (.emptyInlineKey j) := fun h => by
    obtain ⟨_, -, hcause⟩ := mapError_eq_error.mp h
    exact nomatch hcause
  rcases bind_eq_error.mp h with h | ⟨⟨key, mid⟩, -, h⟩
  · exact absurd h hinlined
  · dsimp only at h
    split at h
    · obtain ⟨⟩ := Except.error.inj h
      rfl
    · cases hs : Text.ofUtf8? key with
      | none =>
          rw [hs] at h
          exact nomatch Except.error.inj h
      | some key =>
          rw [hs] at h
          rcases bind_eq_error.mp h with h | ⟨_, -, h⟩
          · exact absurd h hinlined
          · exact nomatch h

namespace Store

theorem parse_eq_ok_iff {buf : Bytes} {store : Store} :
    parse buf = .ok store ↔ ∃ es, scanAll buf = ⟨es, none⟩ ∧ store = ⟨buf, es.length⟩ := by
  dsimp only [parse]
  cases hfound : scanAll buf with
  | mk es failure =>
      cases failure with
      | none =>
          constructor
          · exact fun h => ⟨es, rfl, (Except.ok.inj h).symm⟩
          · rintro ⟨es', hes, rfl⟩
            rw [(Found.mk.inj hes).1]
      | some cause =>
          constructor
          · exact fun h => nomatch h
          · rintro ⟨es', hes, -⟩
            exact nomatch (Found.mk.inj hes).2

/-- However a scan goes, parsing goes the same way. -/
theorem parse_cases (buf : Bytes) :
    (∃ cause, Scan.start buf = .error cause ∧ parse buf = .error cause) ∨
      ∃ s es t, Scan.start buf = .ok s ∧ s.Yields es t ∧
        ((t.next.1 = none ∧ t.remaining = 0 ∧ parse buf = .ok ⟨buf, es.length⟩) ∨
          ∃ cause, t.next.1 = some (.error cause) ∧ parse buf = .error cause) := by
  cases hstart : Scan.start buf with
  | error cause => exact Or.inl ⟨cause, rfl, parse_eq_error (by rw [scanAll_of_start hstart])⟩
  | ok s =>
      obtain ⟨es, t, hes, failure, hend⟩ := s.exists_yields
      have hfound := scanAll_of_yields hstart hes hend
      refine Or.inr ⟨s, es, t, rfl, hes, ?_⟩
      cases failure with
      | none =>
          obtain ⟨hended, heq⟩ := Scan.ended_of_next_none (eq_mk_snd hend)
          rw [heq] at hended
          refine Or.inl ⟨hend, hended.resolve_left fun hfailed => ?_,
            parse_eq_ok_iff.mpr ⟨es, hfound, rfl⟩⟩
          rw [hes.keeps.2.2, (Scan.of_start hstart).1] at hfailed
          exact nomatch hfailed
      | some cause => exact Or.inr ⟨cause, hend, parse_eq_error (by rw [hfound])⟩

/-- A store parses, with `n` entries, exactly when a scan over its bytes starts,
gives `n` entries call after call, and then gives none and has none left; they
are the store's entries, and none of their keys is empty.  If it does not parse,
the cause is the one that the scan did not start for, or the one that it gave
where an entry was due.  Along a scan the count that is left goes down by one
with each entry and at no other call, an empty key is reported with the number
of entries before it, and after a failure or none there is nothing more. -/
theorem parse_scans (buf : Bytes) :
    (∀ n, (∃ store, parse buf = .ok store ∧ store.count = n) ↔
      ∃ s es t, Scan.start buf = .ok s ∧ s.Yields es t ∧ es.length = n ∧
        t.next.1 = none ∧ t.remaining = 0) ∧
    (∀ store, parse buf = .ok store →
      store.bytes = buf ∧ (∀ e ∈ store.entries, e.1 ≠ "") ∧
        ∀ s es t, Scan.start buf = .ok s → s.Yields es t → t.next.1 = none →
          store.entries = es) ∧
    (∀ cause, parse buf = .error cause ↔
      Scan.start buf = .error cause ∨
        ∃ s es t, Scan.start buf = .ok s ∧ s.Yields es t ∧ t.next.1 = some (.error cause)) ∧
    ∀ s es t, Scan.start buf = .ok s → s.Yields es t →
      t.remaining + es.length = s.remaining ∧
      (∀ e u, t.next = (some (.ok e), u) → u.remaining + 1 = t.remaining) ∧
      (∀ cause u, t.next = (some (.error cause), u) →
        u.remaining = t.remaining ∧ (∀ i, cause = .emptyInlineKey i → i = es.length) ∧
          ∀ k, u.item k = none) ∧
      ∀ u, t.next = (none, u) → u = t ∧ ∀ k, u.item k = none := by
  refine ⟨fun n => ?_, fun store hparse => ?_, fun cause => ?_, fun s es t hstart hes => ?_⟩
  · constructor
    · rintro ⟨store, hparse, rfl⟩
      rcases parse_cases buf with ⟨_, -, hfail⟩ | ⟨s, es, t, hstart, hes, hend | ⟨_, -, hfail⟩⟩
      · exact nomatch hparse.symm.trans hfail
      · obtain rfl := Except.ok.inj (hparse.symm.trans hend.2.2)
        exact ⟨s, es, t, hstart, hes, rfl, hend.1, hend.2.1⟩
      · exact nomatch hparse.symm.trans hfail
    · rintro ⟨s, es, t, hstart, hes, rfl, hend, -⟩
      have hfound : scanAll buf = ⟨es, none⟩ := scanAll_of_yields hstart hes hend
      exact ⟨_, parse_eq_ok_iff.mpr ⟨es, hfound, rfl⟩, rfl⟩
  · refine ⟨parse_bytes hparse, fun e he => (store.storable_entries e he).key_ne,
      fun s es t hstart hes hend => ?_⟩
    have hfound : scanAll buf = ⟨es, none⟩ := scanAll_of_yields hstart hes hend
    rw [entries, parse_bytes hparse, hfound]
  · constructor
    · intro hparse
      rcases parse_cases buf with ⟨_, hstart, hfail⟩ |
        ⟨s, es, t, hstart, hes, hend | ⟨_, hend, hfail⟩⟩
      · obtain rfl := Except.error.inj (hparse.symm.trans hfail)
        exact Or.inl hstart
      · exact nomatch hparse.symm.trans hend.2.2
      · obtain rfl := Except.error.inj (hparse.symm.trans hfail)
        exact Or.inr ⟨s, es, t, hstart, hes, hend⟩
    · rintro (hstart | ⟨s, es, t, hstart, hes, hend⟩)
      · exact parse_eq_error (by rw [scanAll_of_start hstart])
      · have hfound : scanAll buf = ⟨es, some cause⟩ := scanAll_of_yields hstart hes hend
        exact parse_eq_error (by rw [hfound])
  · obtain ⟨hgood, hindex⟩ := Scan.of_start hstart
    obtain ⟨hcount, hremaining, -⟩ := hes.keeps
    refine ⟨hremaining, fun e u => Scan.remaining_of_next_ok, fun cause u hnext => ?_,
      fun u hnext => ?_⟩
    · obtain ⟨hended, hleft, hread⟩ := Scan.ended_of_next_error hnext
      refine ⟨hleft, ?_, Scan.item_of_ended hended⟩
      rintro i rfl
      rw [index_of_emptyInlineKey hread, hcount, hindex, Nat.zero_add]
    · obtain ⟨hended, rfl⟩ := Scan.ended_of_next_none hnext
      exact ⟨rfl, Scan.item_of_ended hended⟩

/-- Two entries, of which the second has an empty key. -/
def secondKeyEmpty : Bytes := [1, 0x82, 0xa1, 0x61, 0xc4, 0, 0xa0, 0xc4, 0]

/-- The scan gives one entry and a failure, with the count of the second entry
still left, and then nothing. -/
theorem parse_scans_second_key_empty :
    parse secondKeyEmpty = .error (.emptyInlineKey 1) ∧
      ∃ s t u, Scan.start secondKeyEmpty = .ok s ∧ s.Yields [("a", [])] t ∧
        t.next = (some (.error (.emptyInlineKey 1)), u) ∧ u.remaining = 1 ∧
        ∀ k, u.item k = none := by
  have hstart : Scan.start secondKeyEmpty = .ok ⟨secondKeyEmpty.drop 2, 0, 2, false⟩ := by rfl
  have hyields : Scan.Yields ⟨secondKeyEmpty.drop 2, 0, 2, false⟩ [("a", [])]
      ⟨secondKeyEmpty.drop 6, 1, 1, false⟩ := .cons (by rfl) (.nil _)
  have hnext : Scan.next ⟨secondKeyEmpty.drop 6, 1, 1, false⟩
      = (some (.error (.emptyInlineKey 1)), ⟨secondKeyEmpty.drop 6, 1, 1, true⟩) := by rfl
  obtain ⟨-, -, hfail, hscan⟩ := parse_scans secondKeyEmpty
  obtain ⟨-, -, hfailure, -⟩ := hscan _ _ _ hstart hyields
  obtain ⟨hleft, -, hended⟩ := hfailure _ _ hnext
  refine ⟨(hfail _).mpr (Or.inr ⟨_, _, _, hstart, hyields, ?_⟩),
    _, _, _, hstart, hyields, hnext, hleft, hended⟩
  rw [hnext]

end Store

end MetaRecord.Inline
