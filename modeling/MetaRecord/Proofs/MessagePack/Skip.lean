/-
# `MetaRecord.Proofs.MessagePack.Skip` — stepping over a value takes one value

Every value is its own bytes and then the values in it, as many as its own
bytes say; `Heads` is that.  `Read.head` reads the own bytes of one value, so
a sequence of values can be followed one head after the other, with a number
for how many of them are still owed.

`skip` does this.  That it refuses a number of values which the remaining bytes
cannot meet costs nothing: every value takes a byte at least.

Main statements: `Read.head_eq_ok_iff`; `isSequence_append_iff`, what a head
does to the number of values that are owed; and `Read.skip_eq_ok_iff` and
`Read.raw_eq_ok_iff`.
-/
import MetaRecord.MessagePack.Skip
import MetaRecord.Proofs.MessagePack.Grammar

namespace MetaRecord.MessagePack

/-! ## Heads -/

/-- `p` is what a value that has `n` others in it consists of besides them. -/
inductive Heads : (n : Nat) → Bytes → Prop
  | scalar {code : UInt8} {data : Bytes} : (code, data.length) ∈ scalarCodes →
      Heads 0 (code :: data)
  | bin {p data : Bytes} : Opens .bin data.length p → Heads 0 (p ++ data)
  | ext {p data : Bytes} {tag : UInt8} : Opens .ext data.length p → Heads 0 (p ++ tag :: data)
  | str {p data : Bytes} : Opens .str data.length p → Heads 0 (p ++ data)
  | array {n : Nat} {p : Bytes} : Opens .array n p → Heads n p
  | map {n : Nat} {p : Bytes} : Opens .map n p → Heads (2 * n) p

/-- What follows the count of a value when its head is read: the bytes that are
its own and no others, and how many values are in it. -/
def Family.stride (f : Family) (size n : Nat) : Read Stride :=
  match f with
  | .str | .bin => Read.strideOver size n
  | .ext => Read.strideOver size (n + 1)
  | .array => pure ⟨n, size⟩
  | .map => pure ⟨2 * n, size⟩

namespace Read

/-- What follows the first byte `b` where a head is to be read. -/
def headBy (b : UInt8) : Read Stride :=
  match (Lead.ofByte b).scalar?, (Lead.ofByte b).opening? with
  | some width, _ => strideOver 1 width
  | none, some (f, count) => count.read >>= f.stride count.size
  | none, none => throw (.wrongKind .object b)

theorem head_eq : head = byte >>= headBy := by
  refine congrArg (byte >>= ·) (funext fun b => ?_)
  rw [headBy]
  cases Lead.ofByte b <;> rfl

variable {b : UInt8} {f : Family} {count : Count} {n k : Nat} {p mid buf rest : Bytes}
  {s : Stride}

theorem headBy_of_scalar (h : (Lead.ofByte b).scalar? = some n) :
    headBy b = strideOver 1 n := by
  simp only [headBy, h]

theorem headBy_of_opening (h : (Lead.ofByte b).opening? = some (f, count)) :
    headBy b = count.read >>= f.stride count.size := by
  simp only [headBy, h, Lead.scalar?_of_opening h]

theorem head_of_opens (h : Opens f n p) (mid : Bytes) :
    head (p ++ mid) = f.stride p.length n mid := by
  obtain ⟨code, count, q, hcode, rfl, hsize, hread⟩ := h.exists_count
  rw [head_eq]
  show headBy code (q ++ mid) = _
  rw [headBy_of_opening hcode, hsize]
  show (count.read (q ++ mid) >>= fun x => f.stride (code :: q).length x.1 x.2) = _
  rw [hread, ok_bind]

theorem head_of_heads (h : Heads k p) (rest : Bytes) :
    head (p ++ rest) = .ok (⟨k, p.length⟩, rest) := by
  cases h with
  | @scalar code data hcode =>
      rw [head_eq]
      show headBy code (data ++ rest) = _
      rw [headBy_of_scalar (Lead.scalar?_ofByte.mpr hcode)]
      exact strideOver_eq_ok_iff.mpr ⟨by simp [Nat.add_comm], data, rfl, rfl⟩
  | @bin p data hp =>
      rw [List.append_assoc, head_of_opens hp]
      exact strideOver_eq_ok_iff.mpr ⟨by simp, data, rfl, rfl⟩
  | @ext p data tag hp =>
      rw [List.append_assoc, head_of_opens hp]
      exact strideOver_eq_ok_iff.mpr ⟨by simp, tag :: data, rfl, rfl⟩
  | @str p data hp =>
      rw [List.append_assoc, head_of_opens hp]
      exact strideOver_eq_ok_iff.mpr ⟨by simp, data, rfl, rfl⟩
  | array hp => exact head_of_opens hp rest
  | map hp => exact head_of_opens hp rest

theorem heads_of_stride (hp : Opens f n p) (h : f.stride p.length n mid = .ok (s, rest)) :
    ∃ own, Heads s.owed (p ++ own) ∧ s.size = (p ++ own).length ∧ mid = own ++ rest := by
  cases f with
  | str =>
      obtain ⟨rfl, own, rfl, rfl⟩ := strideOver_eq_ok_iff.mp h
      exact ⟨own, .str hp, List.length_append.symm, rfl⟩
  | bin =>
      obtain ⟨rfl, own, rfl, rfl⟩ := strideOver_eq_ok_iff.mp h
      exact ⟨own, .bin hp, List.length_append.symm, rfl⟩
  | ext =>
      obtain ⟨rfl, own, rfl, hown⟩ := strideOver_eq_ok_iff.mp h
      obtain ⟨tag, data, rfl⟩ := List.exists_cons_of_length_eq_add_one hown
      obtain rfl := Nat.succ.inj hown
      exact ⟨tag :: data, .ext hp, by simp, rfl⟩
  | array =>
      obtain ⟨rfl, rfl⟩ := pure_eq_ok_iff.mp h
      exact ⟨[], by rw [List.append_nil]; exact .array hp, by simp, rfl⟩
  | map =>
      obtain ⟨rfl, rfl⟩ := pure_eq_ok_iff.mp h
      exact ⟨[], by rw [List.append_nil]; exact .map hp, by simp, rfl⟩

/-- A head that is read is one of the grammar. -/
theorem head_eq_ok_iff :
    head buf = .ok (s, rest) ↔ ∃ p, Heads s.owed p ∧ s.size = p.length ∧ buf = p ++ rest := by
  constructor
  · intro hhead
    rw [head_eq] at hhead
    obtain ⟨b, mid, hbyte, h⟩ := bind_eq_ok_iff.mp hhead
    obtain rfl := byte_eq_ok_iff.mp hbyte
    rcases (Lead.ofByte b).cases with hunused | ⟨width, hscalar⟩ | ⟨f, count, hopening⟩
    · rw [headBy, hunused] at h
      exact absurd h throw_ne_ok
    · rw [headBy_of_scalar hscalar] at h
      obtain ⟨rfl, own, rfl, rfl⟩ := strideOver_eq_ok_iff.mp h
      exact ⟨b :: own, .scalar (Lead.scalar?_ofByte.mp hscalar), Nat.add_comm .., rfl⟩
    · rw [headBy_of_opening hopening] at h
      obtain ⟨n, mid', hread, hstride⟩ := bind_eq_ok_iff.mp h
      obtain ⟨p, hp, hsize, hbuf⟩ := Opens.of_count hopening hread
      rw [hsize] at hstride
      obtain ⟨own, hheads, hlength, rfl⟩ := heads_of_stride hp hstride
      exact ⟨p ++ own, hheads, hlength, by rw [hbuf, List.append_assoc]⟩
  · rintro ⟨p, hheads, hsize, rfl⟩
    rw [head_of_heads hheads, ← hsize]

end Read

namespace Heads

variable {k : Nat} {p : Bytes}

theorem length_pos (h : Heads k p) : 0 < p.length :=
  (Read.head_size (Read.head_of_heads h [])).2

/-- No value has more than `2 ^ 33` others directly in it. -/
theorem owed_lt (h : Heads k p) : k < 0x200000000 := by
  cases h with
  | scalar | bin | ext | str => decide
  | array hp =>
      have := hp.count_lt
      omega
  | map hp =>
      have := hp.count_lt
      omega

end Heads

/-! ## Sequences -/

theorem Outline.length_members (pairs : List (Outline × Outline)) :
    (members pairs).length = 2 * pairs.length := by
  induction pairs with
  | nil => rfl
  | cons pair pairs ih =>
      show (members pairs).length + 2 = _
      rw [ih]
      rfl

/-- An even number of outlines are keys and values. -/
theorem Outline.exists_members {n : Nat} {vs : List Outline} (h : vs.length = 2 * n) :
    ∃ pairs, members pairs = vs ∧ pairs.length = n := by
  induction n generalizing vs with
  | zero =>
      obtain rfl := List.length_eq_zero_iff.mp h
      exact ⟨[], rfl, rfl⟩
  | succ n ih =>
      match vs, h with
      | key :: value :: vs, h =>
          obtain ⟨pairs, rfl, hpairs⟩ := @ih vs (by simp at h; omega)
          exact ⟨(key, value) :: pairs, rfl, congrArg (· + 1) hpairs⟩

theorem isSequence_zero_iff {q : Bytes} : IsSequence 0 q ↔ q = [] := by
  constructor
  · rintro ⟨vs, hvs, hlength⟩
    obtain rfl := List.length_eq_zero_iff.mp hlength
    cases hvs
    rfl
  · rintro rfl
    exact ⟨[], .nil, rfl⟩

theorem isSequence_succ_iff {n : Nat} {q : Bytes} :
    IsSequence (n + 1) q ↔ ∃ o t, IsValue o ∧ IsSequence n t ∧ q = o ++ t := by
  constructor
  · rintro ⟨vs, hvs, hlength⟩
    cases hvs with
    | nil => exact nomatch hlength
    | cons hv hvs => exact ⟨_, _, ⟨_, hv⟩, ⟨_, hvs, Nat.succ.inj hlength⟩, rfl⟩
  · rintro ⟨o, t, ⟨v, hv⟩, ⟨vs, hvs, hlength⟩, rfl⟩
    exact ⟨v :: vs, .cons hv hvs, congrArg (· + 1) hlength⟩

theorem isSequence_add_iff {m n : Nat} {q : Bytes} :
    IsSequence (m + n) q ↔ ∃ q₁ q₂, IsSequence m q₁ ∧ IsSequence n q₂ ∧ q = q₁ ++ q₂ := by
  induction m generalizing q with
  | zero => simp [isSequence_zero_iff]
  | succ m ih =>
      simp only [Nat.succ_add m n, isSequence_succ_iff, ih]
      constructor
      · rintro ⟨o, _, ho, ⟨q₁, q₂, hq₁, hq₂, rfl⟩, rfl⟩
        exact ⟨_, q₂, ⟨o, q₁, ho, hq₁, rfl⟩, hq₂, (List.append_assoc ..).symm⟩
      · rintro ⟨_, q₂, ⟨o, q₁, ho, hq₁, rfl⟩, hq₂, rfl⟩
        exact ⟨o, _, ho, ⟨q₁, q₂, hq₁, hq₂, rfl⟩, List.append_assoc ..⟩

theorem isSequence_one_iff {q : Bytes} : IsSequence 1 q ↔ IsValue q := by
  simp [isSequence_succ_iff, isSequence_zero_iff]

/-- A value is its own bytes and then the values in it. -/
theorem isValue_iff {o : Bytes} :
    IsValue o ↔ ∃ k p q, Heads k p ∧ IsSequence k q ∧ o = p ++ q := by
  constructor
  · rintro ⟨v, hv⟩
    have halone {p : Bytes} (h : Heads 0 p) : ∃ k p' q, Heads k p' ∧ IsSequence k q ∧ p = p' ++ q :=
      ⟨0, p, [], h, isSequence_zero_iff.mpr rfl, (List.append_nil p).symm⟩
    cases hv with
    | scalar h => exact halone (.scalar h)
    | bin h => exact halone (.bin h)
    | ext h => exact halone (.ext h)
    | str h => exact halone (.str h)
    | array h hitems => exact ⟨_, _, _, .array h, ⟨_, hitems, rfl⟩, rfl⟩
    | map h hpairs => exact ⟨_, _, _, .map h, ⟨_, hpairs, Outline.length_members _⟩, rfl⟩
  · rintro ⟨k, p, q, hp, hq, rfl⟩
    have halone {v : Outline} {p q : Bytes} (hv : Encodes v p) (hq : IsSequence 0 q) :
        IsValue (p ++ q) := by
      obtain rfl := isSequence_zero_iff.mp hq
      rw [List.append_nil]
      exact ⟨v, hv⟩
    cases hp with
    | scalar h => exact halone (.scalar h) hq
    | bin h => exact halone (.bin h) hq
    | ext h => exact halone (.ext h) hq
    | str h => exact halone (.str h) hq
    | array h =>
        obtain ⟨vs, hvs, rfl⟩ := hq
        exact ⟨_, .array h hvs⟩
    | map h =>
        obtain ⟨vs, hvs, hlength⟩ := hq
        obtain ⟨pairs, rfl, rfl⟩ := Outline.exists_members hlength
        exact ⟨_, .map h hvs⟩

/-- Once the own bytes of a value are read, the values in it are owed in its
place. -/
theorem isSequence_append_iff {n k : Nat} {p t : Bytes} (hp : Heads k p) :
    IsSequence (n + 1) (p ++ t) ↔ IsSequence (n + k) t := by
  rw [isSequence_succ_iff, Nat.add_comm n k, isSequence_add_iff]
  constructor
  · rintro ⟨o, q₂, ho, hq₂, hbytes⟩
    obtain ⟨k', p', q₁, hp', hq₁, rfl⟩ := isValue_iff.mp ho
    -- Both heads stand at the front of the same bytes, where only one is read.
    have hhead := Read.head_of_heads hp t
    rw [hbytes, List.append_assoc, Read.head_of_heads hp'] at hhead
    obtain ⟨⟨rfl, -⟩, rfl⟩ := by simpa using hhead
    exact ⟨q₁, q₂, hq₁, hq₂, rfl⟩
  · rintro ⟨q₁, q₂, hq₁, hq₂, rfl⟩
    exact ⟨p ++ q₁, q₂, isValue_iff.mpr ⟨k, p, q₁, hp, hq₁, rfl⟩, hq₂,
      (List.append_assoc ..).symm⟩

/-- Every value takes a byte at least. -/
theorem IsSequence.le_length {n : Nat} {q : Bytes} (h : IsSequence n q) : n ≤ q.length := by
  induction n generalizing q with
  | zero => exact Nat.zero_le _
  | succ n ih =>
      obtain ⟨o, t, ho, ht, rfl⟩ := isSequence_succ_iff.mp h
      obtain ⟨k, p, q, hp, -, rfl⟩ := isValue_iff.mp ho
      have := hp.length_pos
      have := ih ht
      simp only [List.length_append]
      omega

namespace Read

/-! ## Stepping over values -/

/-- With `n` values owed, exactly `n` values are stepped over. -/
theorem skipOwed_eq_ok_iff {n : Nat} {buf rest : Bytes} :
    skipOwed n buf.length buf = .ok rest ↔ ∃ q, IsSequence n q ∧ buf = q ++ rest := by
  -- On the bytes that remain: each turn reads a head and leaves fewer.
  induction hbuf : buf.length using Nat.strongRecOn generalizing n buf with
  | _ size ih =>
      subst hbuf
      cases n with
      | zero => simp [isSequence_zero_iff]
      | succ n =>
          rw [skipOwed_succ]
          constructor
          · intro h
            split at h
            · exact nomatch h
            · split at h
              · exact nomatch h
              · next stride mid hhead =>
                  have hlt := length_lt_of_head hhead
                  obtain ⟨p, hp, -, rfl⟩ := head_eq_ok_iff.mp hhead
                  obtain ⟨q, hq, rfl⟩ := (ih _ hlt rfl).mp h
                  exact ⟨p ++ q, (isSequence_append_iff hp).mpr hq, (List.append_assoc ..).symm⟩
          · rintro ⟨q, hq, rfl⟩
            have hle := hq.le_length
            rw [if_neg (by rw [List.length_append]; omega)]
            obtain ⟨o, t, ho, -, rfl⟩ := isSequence_succ_iff.mp hq
            obtain ⟨k, p, q', hp, -, rfl⟩ := isValue_iff.mp ho
            simp only [List.append_assoc] at hq ih ⊢
            simp only [head_of_heads hp]
            refine (ih _ ?_ rfl).mpr ⟨q' ++ t, (isSequence_append_iff hp).mp hq, by simp⟩
            have := hp.length_pos
            simp only [List.length_append]
            omega

theorem skip_eq_ok_iff {buf rest : Bytes} :
    skip buf = .ok ((), rest) ↔ ∃ o, IsValue o ∧ buf = o ++ rest := by
  simp only [← isSequence_one_iff, ← skipOwed_eq_ok_iff, skip]
  cases skipOwed 1 buf.length buf <;> simp

theorem skip_of_isValue {o : Bytes} (ho : IsValue o) (rest : Bytes) :
    skip (o ++ rest) = .ok ((), rest) :=
  skip_eq_ok_iff.mpr ⟨o, ho, rfl⟩

theorem raw_eq_ok_iff {buf o rest : Bytes} :
    raw buf = .ok (o, rest) ↔ IsValue o ∧ buf = o ++ rest := by
  have hraw : raw buf = .ok (o, rest) ↔
      ∃ mid, skipOwed 1 buf.length buf = .ok mid ∧
        buf.take (buf.length - mid.length) = o ∧ mid = rest := by
    rw [raw, bind_eq_ok]
    simp [Pure.pure, Except.pure]
  simp only [hraw, skipOwed_eq_ok_iff, isSequence_one_iff]
  constructor
  · rintro ⟨_, ⟨q, hq, rfl⟩, rfl, rfl⟩
    simpa using hq
  · rintro ⟨ho, rfl⟩
    exact ⟨rest, ⟨o, ho, rfl⟩, by simp, rfl⟩

end Read

/-- There are sequences of any number of values. -/
theorem isSequence_replicate (n : Nat) : IsSequence n (List.replicate n 0xc0) := by
  induction n with
  | zero => exact isSequence_zero_iff.mpr rfl
  | succ n ih =>
      have hnil : Encodes .plain [0xc0] := @Encodes.scalar 0xc0 [] (by decide)
      exact isSequence_succ_iff.mpr ⟨[0xc0], _, ⟨_, hnil⟩, ih, rfl⟩

/-- The bytes of a sequence tell how many values it has. -/
theorem IsSequence.number_unique {m n : Nat} {q : Bytes} (hm : IsSequence m q)
    (hn : IsSequence n q) : m = n := by
  wlog hle : m ≤ n generalizing m n
  · exact (this hn hm (Nat.le_of_not_le hle)).symm
  obtain ⟨k, rfl⟩ := Nat.exists_eq_add_of_le hle
  obtain ⟨q₁, q₂, hq₁, hq₂, rfl⟩ := isSequence_add_iff.mp hn
  have hall := Read.skipOwed_eq_ok_iff.mpr ⟨_, hm, (List.append_nil _).symm⟩
  rw [Read.skipOwed_eq_ok_iff.mpr ⟨q₁, hq₁, rfl⟩] at hall
  obtain rfl := Except.ok.inj hall
  have := hq₂.le_length
  simp at this
  omega

/-- Where a value ends does not depend on what follows it. -/
theorem IsValue.append_inj {o o' rest rest' : Bytes} (ho : IsValue o) (ho' : IsValue o')
    (h : o ++ rest = o' ++ rest') : o = o' ∧ rest = rest' := by
  have hraw : Read.raw (o ++ rest) = .ok (o, rest) := Read.raw_eq_ok_iff.mpr ⟨ho, rfl⟩
  rw [Read.raw_eq_ok_iff.mpr ⟨ho', h⟩, Except.ok.injEq, Prod.mk.injEq] at hraw
  exact ⟨hraw.1.symm, hraw.2.symm⟩

end MetaRecord.MessagePack
