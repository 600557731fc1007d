import Mathlib.Algebra.Ring.Nat
import Microchain.Eosio.Hex

/-!
# Encodings that can be read back

- `varuint32FromBin_toBin`: the round trip of the size prefix, and with it those of
  strings and vectors.
-/

namespace Microchain.Eosio

/-! ## `varuint32` -/

theorem shiftRight7_toNat (val : UInt32) : (val >>> 7).toNat = val.toNat / 128 := by
  rw [UInt32.toNat_shiftRight]
  show val.toNat >>> 7 = _
  rw [Nat.shiftRight_eq_div_pow]

theorem low7_toNat (val : UInt32) : (val &&& 0x7f).toNat = val.toNat % 128 := by
  rw [UInt32.toNat_and]
  show val.toNat &&& (2 ^ 7 - 1) = _
  rw [Nat.and_two_pow_sub_one_eq_mod]

/-- The last byte of an encoding. -/
theorem lastByte_toNat (val : UInt32) : ((val &&& 0x7f).toUInt8).toNat = val.toNat % 128 := by
  rw [UInt32.toNat_toUInt8, low7_toNat]
  omega

/-- A byte with the continuation bit. -/
theorem moreByte_toNat (val : UInt32) :
    (((val &&& 0x7f) ||| 0x80).toUInt8).toNat = val.toNat % 128 + 128 := by
  rw [UInt32.toNat_toUInt8, UInt32.toNat_or, low7_toNat]
  show (val.toNat % 128 ||| 2 ^ 7) % 2 ^ 8 = _
  rw [Nat.or_comm, ← Nat.mul_one (2 ^ 7),
    ← Nat.two_pow_add_eq_or_of_lt (show val.toNat % 128 < 2 ^ 7 by omega)]
  omega

theorem payload_toNat (b : UInt8) : (b &&& 0x7f).toUInt32.toNat = b.toNat % 128 := by
  rw [UInt8.toNat_toUInt32, UInt8.toNat_and]
  show b.toNat &&& (2 ^ 7 - 1) = _
  rw [Nat.and_two_pow_sub_one_eq_mod]

/-- The continuation bit. -/
theorem continues_iff (b : UInt8) : b &&& 0x80 ≠ 0 ↔ 128 ≤ b.toNat := by
  have hall : ∀ i : Fin 256, (i.val &&& 128) = i.val / 128 * 128 := by decide +kernel
  have hbit : (b &&& 0x80).toNat = b.toNat / 128 * 128 := by
    rw [UInt8.toNat_and]
    exact hall ⟨b.toNat, b.toNat_lt⟩
  have hzero : b &&& 0x80 = 0 ↔ (b &&& 0x80).toNat = 0 := by
    rw [← UInt8.toNat_inj]
    rfl
  rw [Ne, hzero, hbit]
  omega

/-- Adding a payload at its place. -/
theorem or_shiftLeft_toNat {result x shift : UInt32} (hshift : shift.toNat < 32)
    (hresult : result.toNat < 2 ^ shift.toNat) (hx : x.toNat * 2 ^ shift.toNat < 2 ^ 32) :
    (result ||| (x <<< shift)).toNat = result.toNat + x.toNat * 2 ^ shift.toNat := by
  have hleft : (x <<< shift).toNat = 2 ^ shift.toNat * x.toNat := by
    rw [UInt32.toNat_shiftLeft, Nat.mod_eq_of_lt hshift, Nat.shiftLeft_eq, Nat.mul_comm]
    exact Nat.mod_eq_of_lt (by rwa [Nat.mul_comm])
  rw [UInt32.toNat_or, hleft, Nat.or_comm, ← Nat.two_pow_add_eq_or_of_lt hresult,
    Nat.add_comm, Nat.mul_comm]

/-- **The two loops**: the rounds that write `val` are read back on top of `result`. -/
theorem varuint32Loop_roundTrip : ∀ (rounds : Nat) (shift result val : UInt32) (s : Bytes),
    val.toNat < 2 ^ (7 * rounds) → 0 < rounds → result.toNat < 2 ^ shift.toNat →
    val.toNat * 2 ^ shift.toNat < 2 ^ 32 → shift.toNat + 7 * rounds = 35 →
    ∃ w, varuint32FromBinLoop rounds shift result (varuint32ToBinLoop rounds val ++ s) =
      .ok (w, s) ∧ w.toNat = result.toNat + val.toNat * 2 ^ shift.toNat := by
  intro rounds
  induction rounds with
  | zero =>
    intro shift result val s _ hpos
    exact absurd hpos (Nat.lt_irrefl 0)
  | succ rounds ih =>
    intro shift result val s hval _ hresult hfits hshift
    have hrest : val >>> 7 = 0 ↔ val.toNat < 128 := by
      rw [← UInt32.toNat_inj, shiftRight7_toNat]
      show val.toNat / 128 = 0 ↔ _
      omega
    rw [varuint32ToBinLoop]
    by_cases hlast : val >>> 7 = 0
    · -- the last byte: no continuation bit
      have hlt := hrest.mp hlast
      rw [if_pos hlast, varuint32FromBinLoop]
      have hstop : ¬ ((val &&& 0x7f).toUInt8 &&& 0x80 ≠ 0) := by
        rw [continues_iff, lastByte_toNat]
        omega
      refine ⟨result ||| (((val &&& 0x7f).toUInt8 &&& 0x7f).toUInt32 <<< shift), ?_, ?_⟩
      · simp only [List.cons_append, List.nil_append, uint8FromBin, bind, Except.bind, if_neg hstop]
      · have hpayload : (((val &&& 0x7f).toUInt8 &&& 0x7f).toUInt32).toNat = val.toNat := by
          rw [payload_toNat, lastByte_toNat]
          omega
        rw [or_shiftLeft_toNat (by omega) hresult (by rwa [hpayload]), hpayload]
    · have hge := mt hrest.mpr hlast
      rw [if_neg hlast, varuint32FromBinLoop]
      have hmore : ((val &&& 0x7f) ||| 0x80).toUInt8 &&& 0x80 ≠ 0 := by
        rw [continues_iff, moreByte_toNat]
        omega
      have hpayload : ((((val &&& 0x7f) ||| 0x80).toUInt8 &&& 0x7f).toUInt32).toNat =
          val.toNat % 128 := by
        rw [payload_toNat, moreByte_toNat]
        omega
      obtain ⟨place, hplace⟩ : ∃ place, 2 ^ shift.toNat = place := ⟨_, rfl⟩
      have hnext : 2 ^ (shift.toNat + 7) = place * 128 := by
        rw [Nat.pow_add, hplace]
      have hpos : 0 < rounds := by
        -- four rounds have already taken 28 bits, so that the fifth value is below 128
        rcases Nat.eq_zero_or_pos rounds with rfl | hpos
        · omega
        · exact hpos
      have hseven : (shift + 7).toNat = shift.toNat + 7 := by
        rw [UInt32.toNat_add]
        exact Nat.mod_eq_of_lt (show shift.toNat + 7 < 2 ^ 32 by omega)
      have hlow : val.toNat % 128 * place ≤ val.toNat * place :=
        Nat.mul_le_mul_right _ (Nat.mod_le _ _)
      rw [hplace] at hresult hfits
      have hresult' := @or_shiftLeft_toNat result
        ((((val &&& 0x7f) ||| 0x80).toUInt8 &&& 0x7f).toUInt32) shift
        (show shift.toNat < 32 by omega) (by rwa [hplace]) (by rw [hpayload, hplace]; omega)
      rw [hpayload, hplace] at hresult'
      have hsplit : val.toNat * place = val.toNat % 128 * place + val.toNat / 128 * (place * 128) := by
        rw [Nat.mul_comm place, ← Nat.mul_assoc, ← Nat.add_mul, Nat.mul_comm _ 128, Nat.mod_add_div]
      obtain ⟨w, hrun, hw⟩ := ih (shift + 7)
        (result ||| ((((val &&& 0x7f) ||| 0x80).toUInt8 &&& 0x7f).toUInt32 <<< shift)) (val >>> 7) s
        (by
          rw [Nat.mul_add, Nat.pow_add] at hval
          rwa [shiftRight7_toNat, Nat.div_lt_iff_lt_mul (by decide)])
        hpos
        (by
          rw [hresult', hseven, hnext]
          have := Nat.mul_le_mul_right place (show val.toNat % 128 ≤ 127 by omega)
          omega)
        (by rw [shiftRight7_toNat, hseven, hnext]; omega) (by rw [hseven]; omega)
      refine ⟨w, ?_, ?_⟩
      · simp only [List.cons_append, uint8FromBin, bind, Except.bind, if_pos hmore]
        exact hrun
      · rw [hw, hresult', shiftRight7_toNat, hseven, hnext, hplace, hsplit, Nat.add_assoc]

/-- **The round trip** of the size prefix. -/
theorem varuint32FromBin_toBin (n : UInt32) (s : Bytes) :
    varuint32FromBin (varuint32ToBin n ++ s) = .ok (n, s) := by
  have hn := n.toNat_lt
  obtain ⟨w, hrun, hw⟩ := varuint32Loop_roundTrip 5 0 0 n s
    (Nat.lt_of_lt_of_le hn (by decide)) (by decide) (by decide) (by simpa using hn) rfl
  have hwn : w = n := UInt32.toNat_inj.mp (by simpa using hw)
  rw [varuint32FromBin, varuint32ToBin, hrun, hwn]

/-! ## Strings and vectors -/

/-- What the size prefix of a container holds. -/
def Sized {α : Type} (v : List α) : Prop := v.length < UInt32.size

theorem Sized.toNat {α : Type} {v : List α} (h : Sized v) :
    (UInt32.ofNat v.length).toNat = v.length := UInt32.toNat_ofNat_of_lt' h

theorem stringFromBin_toBin {v : Bytes} (h : Sized v) (s : Bytes) :
    stringFromBin (bytesToBin v ++ s) = .ok (v, s) := by
  have hflat : v.flatMap (fun b => [b]) = v := List.flatMap_singleton' v
  rw [stringFromBin, bytesToBin, vectorToBin, hflat, List.append_assoc, varuint32FromBin_toBin]
  show readBytes (UInt32.ofNat v.length).toNat (v ++ s) = _
  rw [h.toNat, readBytes, if_pos (by simp)]
  simp

/-- Elements that are read back one by one. -/
theorem elementsFromBin_toBin {α : Type} {toBin : α → Bytes} {fromBin : FromBin α} {v : List α}
    (helem : ∀ a ∈ v, ∀ s, fromBin (toBin a ++ s) = .ok (a, s)) (s : Bytes) :
    elementsFromBin fromBin v.length (v.flatMap toBin ++ s) = .ok (v, s) := by
  induction v with
  | nil => rfl
  | cons a v ih =>
    obtain ⟨ha, hv⟩ := List.forall_mem_cons.mp helem
    rw [List.flatMap_cons, List.append_assoc, List.length_cons, elementsFromBin, ha]
    show (elementsFromBin fromBin v.length (v.flatMap toBin ++ s)).bind _ = _
    rw [ih hv]
    rfl

theorem vectorFromBin_toBin {α : Type} {toBin : α → Bytes} {fromBin : FromBin α} {v : List α}
    (hv : Sized v) (helem : ∀ a ∈ v, ∀ s, fromBin (toBin a ++ s) = .ok (a, s)) (s : Bytes) :
    vectorFromBin fromBin (vectorToBin toBin v ++ s) = .ok (v, s) := by
  rw [vectorFromBin, vectorToBin, List.append_assoc, varuint32FromBin_toBin]
  show elementsFromBin fromBin (UInt32.ofNat v.length).toNat (v.flatMap toBin ++ s) = _
  rw [hv.toNat]
  exact elementsFromBin_toBin helem s

end Microchain.Eosio
