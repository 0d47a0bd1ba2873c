import FixedWidth.Proofs.Conversion.Interfaces
import Mathlib.Data.List.Chain

/-!
# Chains of conversions

Each conversion leaves an integer that is congruent to the previous one modulo its own power of two,
and so modulo every smaller one; hence along a whole chain the value keeps its residue modulo `2 ^
m`, where `m` is at most every width that the chain reaches (`Scalar.exists_follow`). If no kind on
the way is narrower than the last one, this residue determines the last word. A chain may lead where
no direct conversion does.
-/

namespace FixedWidth.Scalar

/-- The scalar that is reached from `a` by one conversion after the other. -/
def follow {ε : Type} (step : Kind → Scalar → Except ε Scalar) :
    List Kind → Scalar → Except ε Scalar
  | [], a => .ok a
  | k :: ks, a => (step k a).bind (follow step ks)

theorem follow_cons_of_ok {ε : Type} {step : Kind → Scalar → Except ε Scalar} {k : Kind}
    {a b : Scalar} (h : step k a = .ok b) (ks : List Kind) :
    follow step (k :: ks) a = follow step ks b := by
  rw [follow, h]
  rfl

theorem eq_of_isResidue {a b : Scalar} {t : Kind} {i : Int} (ha : a.kind = t) (hb : b.kind = t)
    (hai : t.IsResidue a.value i) (hbi : t.IsResidue b.value i) : a = b := by
  obtain ⟨k, x⟩ := a
  obtain ⟨l, y⟩ := b
  obtain rfl : k = t := ha
  obtain rfl : l = k := hb
  have hxy : x = y := Word.value_injective (hai.unique hbi)
  rw [hxy]

/-- **A chain of conversions keeps the residue** modulo `2 ^ m`, if it reaches no kind of fewer
bits. -/
theorem exists_follow {ks : List Kind} : ∀ {a : Scalar}, (a.kind :: ks).IsChain Kind.Converts →
    ∃ b, follow convert ks a = .ok b ∧ follow cast ks a = .ok b ∧ b.kind = ks.getLastD a.kind ∧
      ∀ m, (∀ k ∈ ks, m ≤ k.bits) → b.value ≡ a.value [ZMOD 2 ^ m] := by
  induction ks with
  | nil =>
    intro a _
    exact ⟨a, rfl, rfl, rfl, fun m _ => Int.ModEq.refl _⟩
  | cons k ks ih =>
    intro a h
    obtain ⟨hk, hks⟩ := List.isChain_cons_cons.mp h
    obtain ⟨c, hc, rfl, hr⟩ := exists_convert_eq hk
    obtain ⟨b, hb, hb', hbk, hbv⟩ := ih hks
    refine ⟨b, ?_, ?_, ?_, ?_⟩
    · rw [follow_cons_of_ok hc, hb]
    · rw [follow_cons_of_ok (cast_eq_ok_iff_convert.mpr hc), hb']
    · rw [hbk, List.getLastD_cons]
    · intro m hm
      have hmc : m ≤ c.kind.bits := hm _ List.mem_cons_self
      exact (hbv m fun l hl => hm l (List.mem_cons_of_mem _ hl)).trans
        (Kind.modEq_of_bits_le hmc hr.modEq)

theorem isResidue_of_wide {a b : Scalar} {ks : List Kind} {t : Kind} (hk : b.kind = t)
    (hw : ∀ k ∈ ks, t.bits ≤ k.bits)
    (h : ∀ m, (∀ k ∈ ks ++ [t], m ≤ k.bits) → b.value ≡ a.value [ZMOD 2 ^ m]) :
    t.IsResidue b.value a.value := by
  refine ⟨hk ▸ b.value_mem_range, h t.bits fun k hkm => ?_⟩
  rcases List.mem_append.mp hkm with hkm | hkm
  · exact hw k hkm
  · rw [List.mem_singleton.mp hkm]

/-- **Conversions compose**: a chain keeps the residue modulo its smallest width, so all chains
through no narrower kind arrive at the same scalar. -/
theorem follow_isResidue (a : Scalar) (ks : List Kind) (t : Kind)
    (h : (a.kind :: (ks ++ [t])).IsChain Kind.Converts) :
    ∃ b, follow convert (ks ++ [t]) a = .ok b ∧ follow cast (ks ++ [t]) a = .ok b ∧ b.kind = t ∧
      (∀ m, (∀ k ∈ ks ++ [t], m ≤ k.bits) → b.value ≡ a.value [ZMOD 2 ^ m]) ∧
      ((∀ k ∈ ks, t.bits ≤ k.bits) →
        (b.value ∈ t.range ∧ b.value ≡ a.value [ZMOD 2 ^ t.bits]) ∧
        (∀ i ∈ t.range, i ≡ a.value [ZMOD 2 ^ t.bits] → i = b.value) ∧
        (∀ ls : List Kind, (a.kind :: (ls ++ [t])).IsChain Kind.Converts →
          (∀ k ∈ ls, t.bits ≤ k.bits) → follow convert (ls ++ [t]) a = .ok b) ∧
        (a.kind.Converts t → a.convert t = .ok b) ∧
        (a.kind = t → b = a)) := by
  obtain ⟨b, hb, hb', hk, hm⟩ := exists_follow h
  rw [List.getLastD_concat] at hk
  refine ⟨b, hb, hb', hk, hm, fun hw => ?_⟩
  have hr : t.IsResidue b.value a.value := isResidue_of_wide hk hw hm
  refine ⟨⟨hr.mem_range, hr.modEq⟩, fun i hi hv => Kind.IsResidue.unique ⟨hi, hv⟩ hr, ?_, ?_, ?_⟩
  · intro ls hls hlw
    obtain ⟨c, hc, -, hck, hcm⟩ := exists_follow hls
    rw [List.getLastD_concat] at hck
    rw [hc, eq_of_isResidue hck hk (isResidue_of_wide hck hlw hcm) hr]
  · intro ht
    obtain ⟨c, hc, hck, hcr⟩ := exists_convert_eq ht
    rw [hc, eq_of_isResidue hck hk hcr hr]
  · intro hat
    exact eq_of_isResidue hk hat hr (hat ▸ Kind.IsResidue.self a.value_mem_range)

/-- Minus one at 8 bits reaches the unsigned kind of 32 bits only by way of a wider signed kind. -/
theorem follow_isResidue_minus_one :
    let a := ofWord (Word.ofInt ⟨.signed, .w8⟩ (-1))
    (a.kind :: ([⟨.signed, .w32⟩] ++ [⟨.unsigned, .w32⟩])).IsChain Kind.Converts ∧
      ¬ a.kind.Converts ⟨.unsigned, .w32⟩ ∧
      ∃ b, follow convert [⟨.signed, .w32⟩, ⟨.unsigned, .w32⟩] a = .ok b ∧
        b.value = 4294967295 := by
  intro a
  have h : (a.kind :: ([⟨.signed, .w32⟩] ++ [⟨.unsigned, .w32⟩])).IsChain Kind.Converts := by decide
  obtain ⟨b, hb, -, -, -, hw⟩ := follow_isResidue a [⟨.signed, .w32⟩] ⟨.unsigned, .w32⟩ h
  obtain ⟨-, hu, -⟩ := hw (by decide)
  exact ⟨h, by decide, b, hb, (hu 4294967295 (by decide) (by decide)).symm⟩

end FixedWidth.Scalar
