/-
# `MetaRecord.Proofs.MessagePack.Local` — a read depends on the bytes it takes

A read looks at bytes from the front and stops somewhere.  What stands behind
that place has no part in its answer, and where some of the bytes before it are
missing, that is what the read reports: no check of a value comes before the
value is there.  `Local` says both of all bytes that a read accepts, in the
words of `Spells`, and is closed under sequencing.

Stepping over a value is a loop and not a sequence, so it is treated by itself:
what is left of a cut sequence of values is followed head by head up to the one
that is cut.

Main statements: `Local.bind` and `Proper.bind`, by which every read of one
value is `Proper` (it also takes a byte at least); `skipOwed_cut` and `Proper.skip`.
-/
import MetaRecord.Proofs.MessagePack.Skip

namespace MetaRecord.MessagePack.Read

/-- Whenever the read succeeds, the bytes that it took spell the value. -/
structure Local {α : Type} (r : Read α) : Prop where
  spelled {buf rest : Bytes} {a : α} : r buf = .ok (a, rest) →
    ∃ p, buf = p ++ rest ∧ Spells ReadError.IsShort r p a

/-- The same, of a read that takes a byte at least. -/
structure Proper {α : Type} (r : Read α) : Prop where
  spelled {buf rest : Bytes} {a : α} : r buf = .ok (a, rest) →
    ∃ p, p ≠ [] ∧ buf = p ++ rest ∧ Spells ReadError.IsShort r p a

variable {α β : Type} {r : Read α} {f : α → Read β}

/-! ## Sequences -/

theorem Proper.toLocal (h : Proper r) : Local r where
  spelled hr := by
    obtain ⟨p, -, hbuf, hp⟩ := h.spelled hr
    exact ⟨p, hbuf, hp⟩

namespace Local

theorem pure (a : α) : Local (Pure.pure a : Read α) where
  spelled h := by
    obtain ⟨rfl, rfl⟩ := pure_eq_ok_iff.mp h
    exact ⟨[], rfl, Spells.pure⟩

theorem throw (e : ReadError) : Local (throw e : Read α) where
  spelled h := absurd h throw_ne_ok

theorem take (n : Nat) : Local (take n) where
  spelled h := by
    obtain ⟨rfl, hfront⟩ := take_eq_ok_iff.mp h
    exact ⟨_, rfl, Spells.take hfront⟩

theorem bind (hr : Local r) (hf : ∀ a, Local (f a)) : Local (r >>= f) where
  spelled h := by
    obtain ⟨a, mid, ha, hb⟩ := bind_eq_ok_iff.mp h
    obtain ⟨p, rfl, hp⟩ := hr.spelled ha
    obtain ⟨p', rfl, hp'⟩ := (hf a).spelled hb
    exact ⟨p ++ p', (List.append_assoc ..).symm, hp.seq hp'⟩

theorem number (width : Nat) : Local (number width) := (take width).bind fun _ => pure _

end Local

namespace Proper

theorem byte : Proper byte where
  spelled h := by
    obtain rfl := byte_eq_ok_iff.mp h
    exact ⟨[_], List.cons_ne_nil _ _, rfl, Spells.byte _⟩

theorem bind (hr : Proper r) (hf : ∀ a, Local (f a)) : Proper (r >>= f) where
  spelled h := by
    obtain ⟨a, mid, ha, hb⟩ := bind_eq_ok_iff.mp h
    obtain ⟨p, hne, rfl, hp⟩ := hr.spelled ha
    obtain ⟨p', rfl, hp'⟩ := (hf a).spelled hb
    exact ⟨p ++ p', List.append_ne_nil_of_left_ne_nil hne _, (List.append_assoc ..).symm,
      hp.seq hp'⟩

/-! ## Values that open with a count -/

theorem opened {family : Family} {k : Nat → Read α} {fault : UInt8 → ReadError}
    (hk : ∀ n, Local (k n)) : Proper (opened family k fault) := by
  refine byte.bind fun b => ?_
  rw [openedBy]
  split
  · next g count _ =>
      split
      · refine Local.bind ?_ hk
        cases count with
        | inside n => exact Local.pure n
        | behind width => exact Local.number width
      · exact Local.throw _
  · exact Local.throw _

theorem bin : Proper bin := by
  rw [bin_eq]
  exact opened Local.take

theorem strBytes : Proper strBytes := by
  rw [strBytes_eq]
  exact opened Local.take

theorem arrayLength : Proper arrayLength := by
  rw [arrayLength_eq]
  exact opened fun _ => Local.pure _

theorem mapLength : Proper mapLength := by
  rw [mapLength_eq]
  exact opened fun _ => Local.pure _

theorem extension : Proper extension := by
  rw [extension_eq]
  exact opened fun n => byte.toLocal.bind fun _ => (Local.take n).bind fun _ => Local.pure _

theorem fixedBin (size : Nat) : Proper (fixedBin size) := by
  refine bin.bind fun bytes => ?_
  split
  · exact Local.pure _
  · exact Local.throw _

theorem str : Proper str := by
  refine strBytes.bind fun bytes => ?_
  split
  · exact Local.pure _
  · exact Local.throw _

/-- A read that goes on as another one does, once there is a byte, takes what
that one takes. -/
theorem spells_of_cons {r r' : Read α} {b : UInt8} {p : Bytes} {a : α}
    (hcons : ∀ t, r' (b :: t) = r (b :: t)) (hnil : ∃ e, r' [] = .error e ∧ e.IsShort)
    (h : Spells ReadError.IsShort r (b :: p) a) : Spells ReadError.IsShort r' (b :: p) a where
  whole rest := (hcons _).trans (h.whole rest)
  cut {q t} hs ht := by
    cases q with
    | nil => exact hnil
    | cons c q =>
        obtain ⟨rfl, -⟩ := List.cons.inj hs
        rw [hcons]
        exact h.cut hs ht

/-- The read of a key is one of two reads, by the first byte. -/
theorem mapKey_cases (b : UInt8) :
    ∃ r : Read Bytes, Proper r ∧ ∀ t, Read.mapKey (b :: t) = r (b :: t) := by
  by_cases hb : ∃ width, Lead.ofByte b = .binSized width
  · obtain ⟨width, hb⟩ := hb
    refine ⟨Read.bin, bin, fun t => ?_⟩
    rw [Read.mapKey, peek, ok_bind, hb]
  · exact ⟨Read.strBytes, strBytes, fun t => Spells.mapKey_cons fun width hw => hb ⟨width, hw⟩⟩

theorem mapKey : Proper mapKey where
  spelled {buf rest key} h := by
    cases buf with
    | nil => exact nomatch h
    | cons b buf =>
        obtain ⟨r, hr, hcons⟩ := mapKey_cases b
        rw [hcons] at h
        obtain ⟨p, hne, hbuf, hp⟩ := hr.spelled h
        obtain ⟨c, p, rfl⟩ := List.exists_cons_of_ne_nil hne
        obtain ⟨rfl, -⟩ := List.cons.inj hbuf
        exact ⟨_, hne, hbuf, spells_of_cons hcons ⟨_, rfl, 1, 0, rfl⟩ hp⟩

/-! ## Scalars -/

theorem nil : Proper nil := by
  refine byte.bind fun b => ?_
  split
  · exact Local.pure _
  · exact Local.throw _

theorem bool : Proper bool := by
  refine byte.bind fun b => ?_
  split
  · exact Local.pure _
  · exact Local.throw _

theorem float : Proper float := by
  refine byte.bind fun b => ?_
  split
  · exact (Local.number 4).bind fun _ => Local.pure _
  · exact (Local.number _).bind fun _ => Local.pure _
  · exact Local.throw _

theorem integer (kind : Kind) (b : UInt8) : Local (integer kind b) := by
  rw [Read.integer]
  split
  · exact Local.pure _
  · exact Local.pure _
  · exact (Local.number _).bind fun _ => Local.pure _
  · exact (Local.number _).bind fun _ => Local.pure _
  · exact Local.throw _

theorem uint : Proper uint := by
  refine byte.bind fun b => (integer .uint b).bind fun v => ?_
  split
  · exact Local.pure _
  · exact Local.throw _

theorem int : Proper int := by
  refine byte.bind fun b => (integer .int b).bind fun v => ?_
  split
  · exact Local.pure _
  · exact Local.throw _

theorem uint32 : Proper uint32 := by
  refine uint.bind fun v => ?_
  split
  · exact Local.pure _
  · exact Local.throw _

theorem uint8 : Proper uint8 := by
  refine uint.bind fun v => ?_
  split
  · exact Local.pure _
  · exact Local.throw _

/-! ## Whole values -/

theorem strideOver (header n : Nat) : Local (strideOver header n) :=
  (Local.take n).bind fun _ => Local.pure _

theorem head : Proper head := by
  rw [head_eq]
  refine byte.bind fun b => ?_
  rw [headBy]
  split
  · exact strideOver _ _
  · next f count _ _ =>
      refine Local.bind ?_ fun n => ?_
      · cases count with
        | inside n => exact Local.pure n
        | behind width => exact Local.number width
      · cases f with
        | str | bin | ext => exact strideOver _ _
        | array | map => exact Local.pure _
  · exact Local.throw _

end Proper

/-- A head that is cut is missed for want of bytes. -/
theorem spells_head {k : Nat} {p : Bytes} (hp : Heads k p) :
    Spells ReadError.IsShort head p ⟨k, p.length⟩ := by
  obtain ⟨p', -, hbytes, hspells⟩ := Proper.head.spelled (head_of_heads hp [])
  rw [List.append_nil, List.append_nil] at hbytes
  rw [hbytes]
  exact hbytes ▸ hspells

/-- Where a sequence of values is cut, so is the stepping over it. -/
theorem skipOwed_cut {n : Nat} {q t : Bytes} (h : IsSequence n (q ++ t)) (ht : t ≠ []) :
    ∃ e, skipOwed n q.length q = .error e ∧ e.IsShort := by
  -- On the bytes that are there: each turn reads a head and leaves fewer.
  induction hq : q.length using Nat.strongRecOn generalizing n q with
  | _ size ih =>
      subst hq
      cases n with
      | zero => exact absurd (List.append_eq_nil_iff.mp (isSequence_zero_iff.mp h)).2 ht
      | succ n =>
          rw [skipOwed_succ]
          by_cases hlt : q.length < n + 1
          · rw [if_pos hlt]
            exact ⟨_, rfl, _, _, rfl⟩
          · rw [if_neg hlt]
            obtain ⟨o, o', ho, -, hbytes⟩ := isSequence_succ_iff.mp h
            obtain ⟨k, p, q', hp, -, rfl⟩ := isValue_iff.mp ho
            rw [List.append_assoc] at hbytes
            rcases Bytes.cut_append hbytes with ⟨t₁, hcut, ht₁⟩ | ⟨q₂, rfl, hq₂⟩
            · obtain ⟨e, he, hshort⟩ := (spells_head hp).cut hcut ht₁
              refine ⟨e, ?_, hshort⟩
              rw [he]
            · rw [List.append_assoc] at h
              rw [head_of_heads hp]
              refine ih _ ?_ ((isSequence_append_iff hp).mp h) rfl
              have := hp.length_pos
              rw [List.length_append]
              omega

/-- What is read by stepping over one value takes that value. -/
theorem Proper.of_skipOwed {k : Bytes → Bytes → α}
    (hr : ∀ buf, r buf = skipOwed 1 buf.length buf >>= fun rest => .ok (k buf rest, rest))
    (hk : ∀ o rest, k (o ++ rest) rest = k o []) : Proper r where
  spelled {buf rest a} h := by
    have hwhole {o : Bytes} (ho : IsSequence 1 o) (rest : Bytes) :
        r (o ++ rest) = .ok (k o [], rest) := by
      have hskip : skipOwed 1 (o ++ rest).length (o ++ rest) = .ok rest :=
        skipOwed_eq_ok_iff.mpr ⟨o, ho, rfl⟩
      rw [hr, hskip, ok_bind, hk]
    rw [hr] at h
    obtain ⟨rest, hskip, ⟨⟩⟩ := bind_eq_ok.mp h
    obtain ⟨o, ho, rfl⟩ := skipOwed_eq_ok_iff.mp hskip
    refine ⟨o, List.length_pos_iff.mp ho.le_length, rfl, ?_⟩
    rw [hk]
    refine ⟨hwhole ho, fun {q t} hq ht => ?_⟩
    obtain ⟨e, he, hshort⟩ := skipOwed_cut (hq ▸ ho) ht
    refine ⟨e, ?_, hshort⟩
    rw [hr, he, error_bind]

theorem Proper.skip : Proper skip := .of_skipOwed (fun _ => rfl) fun _ _ => rfl

theorem Proper.raw : Proper raw :=
  .of_skipOwed (fun _ => rfl) fun o rest => by simp

end MetaRecord.MessagePack.Read
