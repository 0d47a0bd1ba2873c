import FixedWidth.Buffer
import FixedWidth.Proofs.Residue
import Mathlib.Data.Nat.Digits.Defs
import Mathlib.Data.Set.Function

/-!
# A word and its bytes

The bytes of a word are the digits of its plain binary reading to the base 256, the lowest first and
as many as the width has room for (`Word.natOfBytes_eq_ofDigits`). Different sequences of that many
bytes have different numbers below `256 ^ w.bytes`, which is the number of words, so reading bytes
is a bijection between the sequences of the right length and the words of the kind.
-/

namespace FixedWidth

theorem Width.modulus_eq_pow_bytes (w : Width) : w.modulus = 256 ^ w.bytes := by
  rw [w.modulus_eq_two_pow, w.bits_eq_mul_bytes, pow_mul]
  rfl

namespace Word

variable {k : Kind} {w : Width}

/-! ### Bytes as digits -/

theorem natOfBytes_eq_ofDigits (bytes : List UInt8) :
    natOfBytes bytes = Nat.ofDigits 256 (bytes.map UInt8.toNat) := by
  induction bytes with
  | nil => rfl
  | cons b bs ih =>
    rw [natOfBytes, ih, List.map_cons, Nat.ofDigits_cons]

theorem lt_of_mem_map_toNat (bytes : List UInt8) : ∀ d ∈ bytes.map UInt8.toNat, d < 256 := by
  intro d hd
  obtain ⟨b, -, rfl⟩ := List.mem_map.mp hd
  exact b.toNat_lt

theorem natOfBytes_lt (bytes : List UInt8) : natOfBytes bytes < 256 ^ bytes.length := by
  have h := Nat.ofDigits_lt_base_pow_length (by decide : 1 < 256) (lt_of_mem_map_toNat bytes)
  rwa [List.length_map, ← natOfBytes_eq_ofDigits] at h

theorem natOfBytes_inj {bytes bytes' : List UInt8} (hl : bytes.length = bytes'.length)
    (h : natOfBytes bytes = natOfBytes bytes') : bytes = bytes' := by
  rw [natOfBytes_eq_ofDigits, natOfBytes_eq_ofDigits] at h
  have hmap : bytes.map UInt8.toNat = bytes'.map UInt8.toNat :=
    Nat.ofDigits_inj_of_len_eq (by decide : 1 < 256) (by rw [List.length_map, List.length_map, hl])
      (lt_of_mem_map_toNat bytes) (lt_of_mem_map_toNat bytes') h
  exact (List.map_inj_right fun b c => UInt8.toNat_inj.mp).mp hmap

/-- The bytes taken from a number are its lowest digits to the base 256. -/
theorem natOfBytes_range (m n : Nat) :
    natOfBytes ((List.range m).map fun i => UInt8.ofNat (n >>> (8 * i))) = n % 256 ^ m := by
  induction m generalizing n with
  | zero => rw [pow_zero, Nat.mod_one, List.range_zero, List.map_nil, natOfBytes]
  | succ m ih =>
    have hshift (i : Nat) : n >>> (8 * (i + 1)) = (n >>> 8) >>> (8 * i) := by
      rw [Nat.mul_succ, Nat.add_comm, Nat.shiftRight_add]
    have htail : ((List.range m).map Nat.succ).map (fun i => UInt8.ofNat (n >>> (8 * i))) =
        (List.range m).map fun i => UInt8.ofNat ((n >>> 8) >>> (8 * i)) := by
      rw [List.map_map]
      exact List.map_congr_left fun i _ => congrArg UInt8.ofNat (hshift i)
    have hhead : (UInt8.ofNat (n >>> (8 * 0))).toNat = n % 256 := UInt8.toNat_ofNat'
    have hdiv : n >>> 8 = n / 256 := Nat.shiftRight_eq_div_pow n 8
    rw [List.range_succ_eq_map, List.map_cons, htail, natOfBytes, ih, hhead, hdiv, pow_succ',
      Nat.mod_mul]

/-! ### Writing and reading the bytes of a word -/

theorem length_toBytes (x : Word k) : x.toBytes.length = k.width.bytes := by
  rw [toBytes, List.length_map, List.length_range]

theorem natOfBytes_toBytes (x : Word k) : natOfBytes x.toBytes = x.toNat := by
  have h : x.toNat < 256 ^ k.width.bytes := k.width.modulus_eq_pow_bytes ▸ x.toNat_lt
  rw [toBytes, natOfBytes_range, Nat.mod_eq_of_lt h]

theorem ofBytes?_eq_none_iff {bytes : List UInt8} :
    ofBytes? w bytes = none ↔ bytes.length ≠ w.bytes := by
  rw [ofBytes?]
  split
  next h => simp [h]
  next h => simp [h]

/-- **Reading bytes.** As many as the width has are the digits of a word's value. -/
theorem ofBytes?_eq_some_iff {bytes : List UInt8} {x : Unsigned w} :
    ofBytes? w bytes = some x ↔
      bytes.length = w.bytes ∧ x.toNat = Nat.ofDigits 256 (bytes.map UInt8.toNat) := by
  rw [ofBytes?, ← natOfBytes_eq_ofDigits]
  split
  next h =>
    have hlt : natOfBytes bytes < w.modulus := by
      rw [w.modulus_eq_pow_bytes, ← h]
      exact natOfBytes_lt bytes
    have hn : (ofNat ⟨.unsigned, w⟩ (natOfBytes bytes)).toNat = natOfBytes bytes :=
      toNat_ofNat_of_lt hlt
    rw [Option.some.injEq]
    constructor
    · rintro rfl
      exact ⟨h, hn⟩
    · rintro ⟨-, hx⟩
      exact ext_toNat (hn.trans hx.symm)
  next h => simp [h]

theorem ofBytes?_toBytes (x : Unsigned w) : ofBytes? w x.toBytes = some x := by
  refine ofBytes?_eq_some_iff.mpr ⟨x.length_toBytes, ?_⟩
  rw [← natOfBytes_eq_ofDigits, natOfBytes_toBytes]

theorem ofBytes?_injOn : Set.InjOn (ofBytes? w) {bytes | bytes.length = w.bytes} := by
  intro bytes hb bytes' hb' h
  obtain ⟨x, hx⟩ : ∃ x, ofBytes? w bytes = some x :=
    Option.ne_none_iff_exists'.mp fun hn => ofBytes?_eq_none_iff.mp hn hb
  have hv := (ofBytes?_eq_some_iff.mp hx).2
  have hv' := (ofBytes?_eq_some_iff.mp (h ▸ hx)).2
  rw [← natOfBytes_eq_ofDigits] at hv hv'
  exact natOfBytes_inj (hb.trans hb'.symm) (hv.symm.trans hv')

/-! ### Words laid end to end -/

theorem length_flatMap_toBytes (xs : List (Unsigned w)) :
    (xs.flatMap toBytes).length = w.bytes * xs.length := by
  induction xs with
  | nil => rfl
  | cons x xs ih =>
    rw [List.flatMap_cons, List.length_append, ih, length_toBytes, List.length_cons, Nat.mul_succ,
      Nat.add_comm]

theorem take_drop_flatMap_toBytes (xs : List (Unsigned w)) {i : Nat} (h : i < xs.length) :
    ((xs.flatMap toBytes).drop (w.bytes * i)).take w.bytes = xs[i].toBytes := by
  induction xs generalizing i with
  | nil => exact absurd h (Nat.not_lt_zero i)
  | cons x xs ih =>
    have hx : x.toBytes.length = w.bytes := x.length_toBytes
    rw [List.flatMap_cons]
    cases i with
    | zero => rw [Nat.mul_zero, List.drop_zero, ← hx, List.take_left, List.getElem_cons_zero]
    | succ i =>
      have hdrop : w.bytes * (i + 1) = x.toBytes.length + w.bytes * i := by
        rw [hx, Nat.mul_succ, Nat.add_comm]
      rw [hdrop, ← List.drop_drop, List.drop_left, ih (Nat.lt_of_succ_lt_succ h),
        List.getElem_cons_succ]

/-- **Every word is read back from its place.** -/
theorem ofBytes?_block (xs : List (Unsigned w)) {i : Nat} (h : i < xs.length) :
    ofBytes? w (((xs.flatMap toBytes).drop (w.bytes * i)).take w.bytes) = some xs[i] := by
  rw [take_drop_flatMap_toBytes xs h, ofBytes?_toBytes]

end Word

end FixedWidth
