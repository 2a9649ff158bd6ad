/-
# `MetaRecord.Proofs.MessagePack.Spelling` — bytes that a read takes whole

A read that is handed the bytes of a value and anything after them must do two
things: give the value and leave exactly what follows, and, when it is handed
only a part of the bytes, fail for want of the others.  `Spells` says both of
one read, one byte string and one value.  It is closed under sequencing, so
it is proved once for the primitive reads and then follows the shape of a
compound one.

The second half is what makes a truncated value detectable.  The failure is
named as well: `missing` is the class of causes that only report that the
bytes ended, `ReadError.IsShort` for a read of one value.

Main statements: `Spells.bind`, and for each writer of `MessagePack.Write`
that what it writes spells the value it was given, under the bound on lengths
that the format has.
-/
import MetaRecord.MessagePack.Reader
import MetaRecord.MessagePack.Writer
import MetaRecord.Proofs.Outcome

namespace MetaRecord

/-- A string cut somewhere inside `p₁ ++ p₂` is cut inside `p₁`, or at its end,
or after it inside `p₂`. -/
theorem Bytes.cut_append {q t p₁ p₂ : Bytes} (h : q ++ t = p₁ ++ p₂) :
    (∃ t₁, q ++ t₁ = p₁ ∧ t₁ ≠ []) ∨ ∃ q₂, q = p₁ ++ q₂ ∧ q₂ ++ t = p₂ := by
  rcases List.append_eq_append_iff.mp h with ⟨t₁, hp, htt⟩ | ⟨q₂, hq, hp⟩
  · cases t₁ with
    | nil =>
        refine Or.inr ⟨[], ?_, ?_⟩
        · rw [List.append_nil] at hp ⊢
          exact hp.symm
        · exact htt
    | cons b t₁ => exact Or.inl ⟨b :: t₁, hp.symm, List.cons_ne_nil _ _⟩
  · exact Or.inr ⟨q₂, hq, hp.symm⟩

end MetaRecord

namespace MetaRecord.MessagePack

/-! ## Bytes and what they spell -/

theorem Write.bin_ne_nil (data : Bytes) : Write.bin data ≠ [] := by
  rw [Write.bin, Write.length, Write.sized]
  split
  · exact List.cons_ne_nil _ _
  · split
    · exact List.cons_ne_nil _ _
    · exact List.cons_ne_nil _ _

/-- The bytes ended before the value did. -/
def ReadError.IsShort (e : ReadError) : Prop := ∃ need left, e = .short need left

/-- `p` spells `a`: the read takes exactly `p` and gives `a`, whatever follows,
and on less than `p` it fails with a cause that is `missing` bytes. -/
structure Spells {ε α : Type} (missing : ε → Prop) (r : Bytes → Except ε (α × Bytes))
    (p : Bytes) (a : α) : Prop where
  whole (rest : Bytes) : r (p ++ rest) = .ok (a, rest)
  cut {q t : Bytes} : q ++ t = p → t ≠ [] → ∃ e, r q = .error e ∧ missing e

namespace Spells

/-! ## Sequencing -/

section Compose

variable {ε ε' α β : Type} {missing : ε → Prop} {r : Bytes → Except ε (α × Bytes)}
  {p p' : Bytes} {a : α} {b : β}

theorem bind {f : α × Bytes → Except ε (β × Bytes)} (h : Spells missing r p a)
    (h' : Spells missing (fun buf => f (a, buf)) p' b) :
    Spells missing (fun buf => r buf >>= f) (p ++ p') b where
  whole rest := by
    rw [List.append_assoc, h.whole, ok_bind]
    exact h'.whole rest
  cut {q t} hs ht := by
    rcases Bytes.cut_append hs with ⟨t₁, hp, ht₁⟩ | ⟨q₂, rfl, hp'⟩
    · obtain ⟨e, he, hm⟩ := h.cut hp ht₁
      refine ⟨e, ?_, hm⟩
      rw [he, error_bind]
    · obtain ⟨e, he, hm⟩ := h'.cut hp' ht
      refine ⟨e, ?_, hm⟩
      rw [h.whole, ok_bind]
      exact he

theorem mapError {g : ε → ε'} {missing' : ε' → Prop} (h : Spells missing r p a)
    (hg : ∀ e, missing e → missing' (g e)) :
    Spells missing' (fun buf => (r buf).mapError g) p a where
  whole rest := by
    rw [h.whole, mapError_ok]
  cut {q t} hs ht := by
    obtain ⟨e, he, hm⟩ := h.cut hs ht
    refine ⟨g e, ?_, hg e hm⟩
    rw [he, mapError_error]

/-- Nothing spells a value that is already there. -/
theorem done : Spells missing (fun buf => Except.ok (a, buf)) [] a where
  whole _ := rfl
  cut hs ht := absurd (List.append_eq_nil_iff.mp hs).2 ht

end Compose

/-! ## Primitive reads -/

variable {α : Type} {a : α} {p : Bytes}

theorem pure : Spells ReadError.IsShort (Pure.pure a : Read α) [] a := done

theorem pure_of_eq {b : α} (h : b = a) : Spells ReadError.IsShort (Pure.pure b : Read α) [] a := by
  rw [h]
  exact pure

theorem seq {β : Type} {r : Read α} {f : α → Read β} {p' : Bytes} {b : β}
    (h : Spells ReadError.IsShort r p a) (h' : Spells ReadError.IsShort (f a) p' b) :
    Spells ReadError.IsShort (r >>= f) (p ++ p') b :=
  h.bind (f := fun x => f x.1 x.2) h'

/-- What is made of a value without reading on. -/
theorem thenPure {β : Type} {r : Read α} {f : α → Read β} {b : β}
    (h : Spells ReadError.IsShort r p a) (hf : f a = Pure.pure b) :
    Spells ReadError.IsShort (r >>= f) p b := by
  have hseq := h.seq (show Spells ReadError.IsShort (f a) [] b by rw [hf]; exact pure)
  rw [List.append_nil] at hseq
  exact hseq

theorem byte (b : UInt8) : Spells ReadError.IsShort Read.byte [b] b where
  whole _ := rfl
  cut {q t} hs ht := by
    rcases List.append_eq_singleton_iff.mp hs with ⟨rfl, -⟩ | ⟨-, rfl⟩
    · exact ⟨_, rfl, 1, 0, rfl⟩
    · exact absurd rfl ht

theorem take {n : Nat} (h : p.length = n) : Spells ReadError.IsShort (Read.take n) p p where
  whole _ := Read.take_eq_ok_iff.mpr ⟨rfl, h⟩
  cut {q t} hs ht := by
    have hlen : q.length + t.length = n := by rw [← h, ← hs, List.length_append]
    have hpos : 0 < t.length := List.length_pos_iff.mpr ht
    exact ⟨_, Read.take_of_lt (by omega), n, q.length, rfl⟩

theorem number {width n : Nat} (h : n < Nat.pow 256 width) :
    Spells ReadError.IsShort (Read.number width) (Bytes.ofNatBE width n) n := by
  have hread := (take (Bytes.length_ofNatBE width n)).seq
    (f := fun digits => (Pure.pure digits.toNatBE : Read Nat)) pure
  rw [List.append_nil, Bytes.toNatBE_ofNatBE width n h] at hread
  exact hread

/-- A value whose first byte is `code`. -/
theorem lead {f : UInt8 → Read α} (code : UInt8) (h : Spells ReadError.IsShort (f code) p a) :
    Spells ReadError.IsShort (Read.byte >>= f) (code :: p) a := (byte code).seq h

/-- A value whose first byte is `code` and which goes on with a number `n`. -/
theorem sized {f : UInt8 → Read α} {k : Nat → Read α} {code : UInt8} {width n : Nat}
    (hf : f code = Read.number width >>= k) (hn : n < Nat.pow 256 width)
    (h : Spells ReadError.IsShort (k n) p a) :
    Spells ReadError.IsShort (Read.byte >>= f) (Write.sized code width n ++ p) a := by
  refine lead code ?_
  rw [hf]
  exact (number hn).seq h

/-! ## Lengths and counts -/

/-- A value that opens with a length, of one, two or four bytes by its size. -/
theorem length {f : UInt8 → Read α} {k : Nat → Read α} {c₁ c₂ c₄ : UInt8} {n : Nat}
    (h₁ : f c₁ = Read.number 1 >>= k) (h₂ : f c₂ = Read.number 2 >>= k)
    (h₄ : f c₄ = Read.number 4 >>= k) (hn : n < 0x100000000)
    (h : Spells ReadError.IsShort (k n) p a) :
    Spells ReadError.IsShort (Read.byte >>= f) (Write.length c₁ c₂ c₄ n ++ p) a := by
  rw [Write.length]
  split
  · next hlt => exact sized h₁ hlt h
  · split
    · next hlt => exact sized h₂ hlt h
    · exact sized h₄ hn h

/-- A count below sixteen stands in the first byte; others take two or four. -/
theorem count {f : UInt8 → Read UInt32} {small c₂ c₄ : UInt8} (n : UInt32)
    (hs : n.toNat < 16 → f small = Pure.pure (UInt32.ofNat n.toNat))
    (h₂ : f c₂ = Read.number 2 >>= fun n => Pure.pure (UInt32.ofNat n))
    (h₄ : f c₄ = Read.number 4 >>= fun n => Pure.pure (UInt32.ofNat n)) :
    Spells ReadError.IsShort (Read.byte >>= f)
      (if n.toNat < 16 then [small]
        else if n.toNat < 0x10000 then Write.sized c₂ 2 n.toNat
        else Write.sized c₄ 4 n.toNat) n := by
  have hk : Spells ReadError.IsShort (Pure.pure (UInt32.ofNat n.toNat) : Read UInt32) [] n :=
    pure_of_eq UInt32.ofNat_toNat
  split
  · next hlt =>
      refine lead small ?_
      rw [hs hlt]
      exact hk
  · split
    · next hlt => simpa using sized h₂ hlt hk
    · simpa using sized h₄ n.toNat_lt hk

theorem arrayLength (n : UInt32) :
    Spells ReadError.IsShort Read.arrayLength (Write.arrayLength n) n :=
  count n (fun hn => by rw [Lead.ofByte_array hn]) rfl rfl

theorem mapLength (n : UInt32) :
    Spells ReadError.IsShort Read.mapLength (Write.mapLength n) n :=
  count n (fun hn => by rw [Lead.ofByte_map hn]) rfl rfl

/-! ## Byte strings and texts -/

theorem bin {data : Bytes} (h : data.length < 0x100000000) :
    Spells ReadError.IsShort Read.bin (Write.bin data) data :=
  length rfl rfl rfl h (take rfl)

theorem fixedBin {size : Nat} (data : FixedBytes size) (h : size < 0x100000000) :
    Spells ReadError.IsShort (Read.fixedBin size) (Write.bin data.bytes) data := by
  have hbin : data.bytes.length < 0x100000000 := by rw [data.length_eq]; exact h
  refine (bin hbin).thenPure ?_
  rw [FixedBytes.ofBytes?_bytes]

theorem strBytes {s : String} (h : (Text.utf8 s).length < 0x100000000) :
    Spells ReadError.IsShort Read.strBytes (Write.str s) (Text.utf8 s) := by
  dsimp only [Write.str]
  split
  · next hlt =>
      refine lead (UInt8.ofNat (0xa0 + (Text.utf8 s).length)) ?_
      rw [Lead.ofByte_str hlt]
      exact take rfl
  · exact length rfl rfl rfl h (take rfl)

/-- What a text is written as never looks like the start of a byte string. -/
theorem str_head (s : String) :
    ∃ b rest, Write.str s = b :: rest ∧ ∀ width, Lead.ofByte b ≠ .binSized width := by
  dsimp only [Write.str, Write.length, Write.sized]
  split
  · next hlt =>
      refine ⟨_, _, rfl, fun width => ?_⟩
      rw [Lead.ofByte_str hlt]
      exact fun h => Lead.noConfusion h
  · split
    · exact ⟨_, _, rfl, fun width h => Lead.noConfusion h⟩
    · split
      · exact ⟨_, _, rfl, fun width h => Lead.noConfusion h⟩
      · exact ⟨_, _, rfl, fun width h => Lead.noConfusion h⟩

/-- A map key is a text where its first byte does not announce a byte string. -/
theorem mapKey_cons {b : UInt8} {rest : Bytes} (h : ∀ width, Lead.ofByte b ≠ .binSized width) :
    Read.mapKey (b :: rest) = Read.strBytes (b :: rest) := by
  rw [Read.mapKey, Read.peek, ok_bind]
  split
  · next width hb => exact absurd hb (h width)
  · rfl

theorem mapKey {s : String} (h : (Text.utf8 s).length < 0x100000000) :
    Spells ReadError.IsShort Read.mapKey (Write.str s) (Text.utf8 s) := by
  obtain ⟨b, tail, hs, hb⟩ := str_head s
  have hstr := strBytes h
  rw [hs] at hstr ⊢
  refine ⟨fun rest => ?_, fun {q t} hq ht => ?_⟩
  · rw [List.cons_append, mapKey_cons hb]
    exact hstr.whole rest
  · cases q with
    | nil => exact ⟨_, rfl, 1, 0, rfl⟩
    | cons c q =>
        obtain ⟨rfl, -⟩ := List.cons.inj hq
        rw [mapKey_cons hb]
        exact hstr.cut hq ht

/-! ## Integers -/

theorem signed_complement {width : Nat} {v : Int} (hlow : -(Nat.pow 256 width : Nat) ≤ 2 * v)
    (hhigh : 2 * v < (Nat.pow 256 width : Nat)) :
    Read.signed width (Write.complement width v) = v ∧
      Write.complement width v < Nat.pow 256 width := by
  rw [Read.signed, Write.complement]
  generalize Nat.pow 256 width = m at hlow hhigh ⊢
  rcases Int.lt_or_le v 0 with hneg | hpos
  · have hmod : v % (m : Int) = v + m := by
      rw [← Int.add_emod_right, Int.emod_eq_of_lt (by omega) (by omega)]
    rw [hmod, if_neg (by omega)]
    exact ⟨by omega, by omega⟩
  · rw [Int.emod_eq_of_lt hpos (by omega), if_pos (by omega)]
    exact ⟨by omega, by omega⟩

/-- Both integer writers are read by the one read of integers; the typed reads
differ in what they do with its answer. -/
theorem integer_uint (kind : Kind) (v : UInt64) :
    Spells ReadError.IsShort (Read.byte >>= Read.integer kind) (Write.uint v) (v.toNat : Int) := by
  have hk : Spells ReadError.IsShort ((fun n : Nat => Pure.pure (n : Int) : Nat → Read Int)
      v.toNat) [] (v.toNat : Int) := pure
  dsimp only [Write.uint]
  split
  · next hlt =>
      refine lead (UInt8.ofNat v.toNat) ?_
      rw [Read.integer, Lead.ofByte_positive hlt]
      exact pure
  · split
    · next hlt =>
        have h1 : Read.integer kind 0xcc = Read.number 1 >>= fun n => Pure.pure (n : Int) := rfl
        simpa using sized h1 hlt hk
    · split
      · next hlt =>
          have h2 : Read.integer kind 0xcd = Read.number 2 >>= fun n => Pure.pure (n : Int) := rfl
          simpa using sized h2 hlt hk
      · split
        · next hlt =>
            have h4 : Read.integer kind 0xce = Read.number 4 >>= fun n => Pure.pure (n : Int) := rfl
            simpa using sized h4 hlt hk
        · have h8 : Read.integer kind 0xcf = Read.number 8 >>= fun n => Pure.pure (n : Int) := rfl
          simpa using sized h8 v.toNat_lt hk

/-- A signed integer in a first byte and `width` bytes of two's complement. -/
theorem integer_complement (kind : Kind) {code : UInt8} {width : Nat} {v : Int}
    (hcode : Lead.ofByte code = .int width) (hlow : -(Nat.pow 256 width : Nat) ≤ 2 * v)
    (hhigh : 2 * v < (Nat.pow 256 width : Nat)) :
    Spells ReadError.IsShort (Read.byte >>= Read.integer kind)
      (Write.sized code width (Write.complement width v)) v := by
  obtain ⟨hv, hlt⟩ := signed_complement hlow hhigh
  have hk : Spells ReadError.IsShort ((fun n => Pure.pure (Read.signed width n) : Nat → Read Int)
      (Write.complement width v)) [] v := pure_of_eq hv
  have hf : Read.integer kind code
      = Read.number width >>= fun n => Pure.pure (Read.signed width n) := by
    rw [Read.integer, hcode]
  simpa using sized hf hlt hk

theorem integer_int (kind : Kind) (w : Int64) :
    Spells ReadError.IsShort (Read.byte >>= Read.integer kind) (Write.int w) w.toInt := by
  have hlow : -0x8000000000000000 ≤ w.toInt := w.le_toInt
  have hhigh : w.toInt < 0x8000000000000000 := w.toInt_lt
  dsimp only [Write.int]
  split
  · next h =>
      have hn : w.toInt.toNat < 0x80 := by omega
      refine lead (UInt8.ofNat w.toInt.toNat) ?_
      rw [Read.integer, Lead.ofByte_positive hn]
      exact pure_of_eq (Int.toNat_of_nonneg h.1)
  · split
    · next h =>
        have hc : (Write.complement 1 w.toInt : Int) = w.toInt + 256 := by
          show ((w.toInt % (256 : Int)).toNat : Int) = _
          omega
        refine lead (UInt8.ofNat (Write.complement 1 w.toInt)) ?_
        rw [Read.integer, Lead.ofByte_negative (by omega) (by omega)]
        exact pure_of_eq (by rw [hc, Int.add_sub_cancel])
    · split
      · next h =>
          refine integer_complement kind rfl ?_ ?_
          · show -(256 : Int) ≤ _
            omega
          · show _ < (256 : Int)
            omega
      · split
        · next h =>
            refine integer_complement kind rfl ?_ ?_
            · show -(65536 : Int) ≤ _
              omega
            · show _ < (65536 : Int)
              omega
        · split
          · next h =>
              refine integer_complement kind rfl ?_ ?_
              · show -(4294967296 : Int) ≤ _
                omega
              · show _ < (4294967296 : Int)
                omega
          · refine integer_complement kind rfl ?_ ?_
            · show -(18446744073709551616 : Int) ≤ _
              omega
            · show _ < (18446744073709551616 : Int)
              omega

theorem narrow {kind : Kind} {v : Int} {f : Int → Read α}
    (h : Spells ReadError.IsShort (Read.byte >>= Read.integer kind) p v)
    (hf : f v = Pure.pure a) :
    Spells ReadError.IsShort (Read.byte >>= fun b => Read.integer kind b >>= f) p a := by
  have hthen := h.thenPure hf
  rw [bind_assoc] at hthen
  exact hthen

theorem uint (v : UInt64) : Spells ReadError.IsShort Read.uint (Write.uint v) v :=
  narrow (integer_uint .uint v) (by
    show Pure.pure (UInt64.ofNat v.toNat) = _
    rw [UInt64.ofNat_toNat])

theorem int (w : Int64) : Spells ReadError.IsShort Read.int (Write.int w) w :=
  narrow (integer_int .int w) (by
    have hw : w.toInt < 0x8000000000000000 := w.toInt_lt
    rw [if_pos hw, Int64.ofInt_toInt])

theorem uint32 (c : UInt32) :
    Spells ReadError.IsShort Read.uint32 (Write.uint c.toUInt64) c := by
  have hc : c.toUInt64.toNat < 0x100000000 := c.toNat_lt
  refine (uint c.toUInt64).thenPure ?_
  rw [if_pos hc, UInt32.toUInt32_toUInt64]

theorem uint8 (c : UInt8) : Spells ReadError.IsShort Read.uint8 (Write.uint c.toUInt64) c := by
  have hc : c.toUInt64.toNat < 0x100 := c.toNat_lt
  refine (uint c.toUInt64).thenPure ?_
  rw [if_pos hc, UInt8.toUInt8_toUInt64]

end Spells

/-! ## Lengths that are read -/

/-- A length inside the byte is below 32, one after it has at most four bytes. -/
def Lead.isBounded : Lead → Bool
  | .str n => n < 32
  | .binSized width | .strSized width => width ≤ 4
  | _ => true

theorem Lead.isBounded_ofByte (b : UInt8) : (ofByte b).isBounded = true := by
  have h : ∀ n : Fin 256, (ofByte (UInt8.ofNat n)).isBounded = true := by decide +kernel
  simpa using h ⟨b.toNat, b.toNat_lt⟩

namespace Read

theorem number_lt {width n : Nat} {buf rest : Bytes} (h : number width buf = .ok (n, rest))
    (hw : width ≤ 4) : n < 0x100000000 := by
  obtain ⟨digits, rfl, rfl, rfl⟩ := number_eq_ok_iff.mp h
  exact Nat.lt_of_lt_of_le digits.toNatBE_lt (Nat.pow_le_pow_right (by decide) hw)

theorem length_of_sized {width : Nat} {buf rest data : Bytes}
    (h : (number width >>= take : Read Bytes) buf = .ok (data, rest)) (hw : width ≤ 4) :
    data.length < 0x100000000 := by
  obtain ⟨n, mid, hn, htake⟩ := bind_eq_ok_iff.mp h
  obtain ⟨-, rfl⟩ := take_eq_ok_iff.mp htake
  exact number_lt hn hw

theorem length_of_bin {buf rest data : Bytes} (h : bin buf = .ok (data, rest)) :
    data.length < 0x100000000 := by
  obtain ⟨b, mid, -, h⟩ := bind_eq_ok_iff.mp h
  have hb := Lead.isBounded_ofByte b
  cases hl : Lead.ofByte b <;> rw [hl] at h hb
  case binSized width => exact length_of_sized h (of_decide_eq_true hb)
  all_goals exact absurd h throw_ne_ok

theorem length_of_strBytes {buf rest data : Bytes} (h : strBytes buf = .ok (data, rest)) :
    data.length < 0x100000000 := by
  obtain ⟨b, mid, -, h⟩ := bind_eq_ok_iff.mp h
  have hb := Lead.isBounded_ofByte b
  cases hl : Lead.ofByte b <;> rw [hl] at h hb
  case str n =>
    obtain ⟨-, rfl⟩ := take_eq_ok_iff.mp h
    exact Nat.lt_trans (of_decide_eq_true hb) (by decide)
  case strSized width => exact length_of_sized h (of_decide_eq_true hb)
  all_goals exact absurd h throw_ne_ok

theorem length_of_mapKey {buf rest data : Bytes} (h : mapKey buf = .ok (data, rest)) :
    data.length < 0x100000000 := by
  cases buf with
  | nil => exact absurd h (by simp [mapKey, peek, error_bind])
  | cons b buf =>
      rw [mapKey, peek, ok_bind] at h
      split at h
      · exact length_of_bin h
      · exact length_of_strBytes h

end Read

end MetaRecord.MessagePack
