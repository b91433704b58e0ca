import Mathlib
import TreeSearch.Game.Side

/-!
# The order of scores

Scores are floats, and floats are not ordered: a float that is no number compares with nothing, and the two zeros
compare as equal.  Here every float gets a `rank`, an integer that counts the floats between it and zero, so that
comparing two numbers is comparing their ranks.

* (order) `lt_iff`, `le_iff`, `beq_iff`: a comparison holds iff both sides are numbers and their ranks compare.
* (ends) no rank lies beyond `top`, and the two infinities are the only floats at the ends: `eq_infinity_of_rank`,
  `eq_neg_infinity_of_rank`.
* (sign) `rank_neg`: the negated score has the negated rank.
* (no gaps) `exists_rank`: every integer between the ranks of the infinities is the rank of a number.

A float is a word of bits, compared after it is taken apart into sign, mantissa and exponent.  `Held` says which
parts come out of a word; for these, comparing exponents first and mantissas second is comparing `height`s.
-/

namespace TreeSearch.Score

open Float.Model UnpackedFloat

/-! ### Floats taken apart -/

/-- The parts that a word of bits can hold: the exponent is the smallest one, or the mantissa fills its bits. -/
def Held : UnpackedFloat → Prop
  | .finite _ m e _ => m < 0x20000000000000 ∧ -1074 ≤ e ∧ e ≤ 971 ∧ (e = -1074 ∨ 0x10000000000000 ≤ m)
  | _ => True

/-- The number of floats from zero, with the sign of the float. -/
def height : UnpackedFloat → Int
  | .notANumber => 0
  | .zero _ => 0
  | .infinity s => s.apply 0x7FF0000000000000
  | .finite s m e _ => s.apply ((e + 1074) * 0x10000000000000 + m)

private theorem toNat_implicit (v : BitVec 52) : (1#1 ++ v).toNat = 0x10000000000000 + v.toNat := by
  rw [BitVec.toNat_append, ← Nat.shiftLeft_add_eq_or_of_lt v.isLt, Nat.shiftLeft_eq]
  simp

private theorem held_unpack (b : BitVec 64) : Held (UnpackedFloat.unpack Format.binary64 b) := by
  have hm : (@unpackMantissa Format.binary64 b).toNat < 0x10000000000000 := BitVec.isLt _
  have he : (@unpackExponent Format.binary64 b).toNat < 2048 := BitVec.isLt _
  have hbias : Format.binary64.exponentBias = 1023 := rfl
  unfold UnpackedFloat.unpack
  simp only
  split
  · split <;> trivial
  · rename_i hinf
    split
    · rename_i hzero
      split
      · trivial
      · have h0 : (@unpackExponent Format.binary64 b).toNat = 0 := by rw [hzero]; rfl
        simp only [Held, hbias, h0]
        omega
    · rename_i hzero
      have h0 : (@unpackExponent Format.binary64 b).toNat ≠ 0 := fun h => hzero (BitVec.eq_of_toNat_eq h)
      have h1 : (@unpackExponent Format.binary64 b).toNat ≠ 2047 := fun h => hinf (BitVec.eq_of_toNat_eq h)
      have h2 := toNat_implicit (@unpackMantissa Format.binary64 b)
      simp only [Held, hbias, h2]
      omega

private theorem compare_finite {m n : Nat} {e f : Int} {hm : 0 < m} {hn : 0 < n} {s t : Sign}
    (hu : Held (.finite s m e hm)) (hv : Held (.finite t n f hn)) :
    (compare e f).then (compare m n) =
      compare ((e + 1074) * 0x10000000000000 + (m : Int)) ((f + 1074) * 0x10000000000000 + n) := by
  simp only [Held] at hu hv
  rcases Int.lt_trichotomy e f with h | rfl | h
  · rw [Int.compare_eq_lt.mpr h, Int.compare_eq_lt.mpr (by omega)]; rfl
  · rw [Int.compare_eq_eq.mpr rfl, Ordering.eq_then]
    rcases Nat.lt_trichotomy m n with h | rfl | h
    · rw [Nat.compare_eq_lt.mpr h, Int.compare_eq_lt.mpr (by omega)]
    · rw [Nat.compare_eq_eq.mpr rfl, Int.compare_eq_eq.mpr rfl]
    · rw [Nat.compare_eq_gt.mpr h, Int.compare_eq_gt.mpr (by omega)]
  · rw [Int.compare_eq_gt.mpr h, Int.compare_eq_gt.mpr (by omega)]; rfl

private theorem compare_neg_neg (a b : Int) : compare (-a) (-b) = (compare a b).swap := by
  rcases Int.lt_trichotomy a b with h | rfl | h
  · rw [Int.compare_eq_lt.mpr h, Int.compare_eq_gt.mpr (by omega)]; rfl
  · rw [Int.compare_eq_eq.mpr rfl, Int.compare_eq_eq.mpr rfl]; rfl
  · rw [Int.compare_eq_gt.mpr h, Int.compare_eq_lt.mpr (by omega)]; rfl

/-- Numbers compare as their heights do. -/
private theorem compare_eq_height {u v : UnpackedFloat} (hu : Held u) (hv : Held v) (nu : u.isNaN = false)
    (nv : v.isNaN = false) : u.compare v = some (compare (height u) (height v)) := by
  have lt : ∀ {a b : Int}, a < b → some Ordering.lt = some (compare a b) := fun h => by
    rw [Int.compare_eq_lt.mpr h]
  have gt : ∀ {a b : Int}, b < a → some Ordering.gt = some (compare a b) := fun h => by
    rw [Int.compare_eq_gt.mpr h]
  rcases u with s | _ | s | ⟨s, m, e, hm⟩
  case notANumber => cases nu
  all_goals rcases v with t | _ | t | ⟨t, n, f, hn⟩
  case infinity.notANumber | zero.notANumber | finite.notANumber => cases nv
  case finite.finite =>
    have key := compare_finite hu hv
    simp only [Held] at hu hv
    cases s <;> cases t
    · show some ((compare e f).then (compare m n)).swap = some (compare (-_) (-_))
      rw [key, compare_neg_neg]
    · exact lt (by simp only [height, Sign.apply]; omega)
    · exact gt (by simp only [height, Sign.apply]; omega)
    · show some ((compare e f).then (compare m n)) = some (compare _ _)
      rw [key]; rfl
  -- the other pairs have different kinds, and the kinds and signs alone decide
  all_goals
    simp only [Held] at hu hv
    cases s <;> cases t
    all_goals first
      | rfl
      | exact lt (by simp only [height, Sign.apply]; omega)
      | exact gt (by simp only [height, Sign.apply]; omega)

/-! ### Floats put together -/

private theorem unpack_subnormal (s : Sign) {m : BitVec 52} (h : 0 < m.toNat) :
    UnpackedFloat.unpack Format.binary64 (packComponents Format.binary64 s 0#11 m) =
      .finite s m.toNat (-1074) h := by
  have hm : m ≠ 0#52 := fun e => by simp [e] at h
  simp only [UnpackedFloat.unpack, unpackMantissa_packComponents, unpackExponent_packComponents,
    unpackSign_packComponents, Sign.ofBitVec_toBitVec, hm]
  rfl

private theorem unpack_normal (s : Sign) {e : BitVec 11} (m : BitVec 52) (h0 : e.toNat ≠ 0)
    (h1 : e.toNat ≠ 2047) :
    UnpackedFloat.unpack Format.binary64 (packComponents Format.binary64 s e m) =
      .finite s (0x10000000000000 + m.toNat) (e.toNat - 1075) (by omega) := by
  have he0 : e ≠ 0#11 := fun h => h0 (by rw [h]; rfl)
  have he1 : e ≠ -1#11 := fun h => h1 (by rw [h]; rfl)
  simp only [UnpackedFloat.unpack, unpackMantissa_packComponents, unpackExponent_packComponents,
    unpackSign_packComponents, Sign.ofBitVec_toBitVec, toNat_implicit, he0, he1, if_false]
  rfl

private theorem pack_finite {s : Sign} {m : Nat} {e : Int} {hm : 0 < m} (h : Held (.finite s m e hm)) :
    UnpackedFloat.pack Format.binary64 (.finite s m e hm) =
      if m.log2 + 1 = 53 then
        packComponents Format.binary64 s (BitVec.ofNat 11 (e + 1075).toNat) (BitVec.ofNat 52 m)
      else packComponents Format.binary64 s 0#11 (BitVec.ofNat 52 m) := by
  obtain ⟨_, he0, he1, _⟩ := h
  have he : (e + 1075).toNat = (e + (1023 : Nat) + (52 : Nat)).toNat := by omega
  show (if 2048 ≤ (e + (1023 : Nat) + (52 : Nat)).toNat + 1 then _ else _) = _
  rw [if_neg (by omega), he]
  rfl

/-- What a word can hold is what comes out of the word. -/
private theorem unpack_pack {u : UnpackedFloat} (h : Held u) :
    UnpackedFloat.unpack Format.binary64 (UnpackedFloat.pack Format.binary64 u) = u := by
  rcases u with s | _ | s | ⟨s, m, e, hm⟩
  · cases s <;> rfl
  · rfl
  · cases s <;> rfl
  rw [pack_finite h]
  obtain ⟨hm1, he0, he1, hn⟩ := h
  have hM : (BitVec.ofNat 52 m).toNat = m % 0x10000000000000 := BitVec.toNat_ofNat ..
  have hE : (BitVec.ofNat 11 (e + 1075).toNat).toNat = (e + 1075).toNat % 2048 := BitVec.toNat_ofNat ..
  split
  · rename_i hlog
    have hfull : 0x10000000000000 ≤ m := (Nat.le_log2 (by omega)).mp (show 52 ≤ m.log2 by omega)
    rw [unpack_normal]
    simp only [hE, hM, finite.injEq, true_and]
    all_goals omega
  · rename_i hlog
    have h53 : m.log2 < 53 := (Nat.log2_lt (by omega)).mpr hm1
    have hlow : m < 0x10000000000000 := (Nat.log2_lt (by omega)).mp (show m.log2 < 52 by omega)
    rw [unpack_subnormal]
    simp only [hM, finite.injEq, true_and]
    all_goals omega

/-! ### Ranks -/

/-- The rank of the infinity. -/
def top : Int := 0x7FF0000000000000

/-- The place of a score among all scores. -/
def rank (x : Float) : Int := height x.toModel.unpack

private theorem isNaN_eq_unpack (x : Float) : x.isNaN = x.toModel.unpack.isNaN := rfl

private theorem held_toModel (x : Float) : Held x.toModel.unpack := held_unpack _

private theorem compare_of_isNaN {u v : UnpackedFloat} (h : ¬(u.isNaN = false ∧ v.isNaN = false)) :
    u.compare v = none := by
  rcases u with _ | _ | _ | _ <;> rcases v with _ | _ | _ | _ <;> first | rfl | exact absurd ⟨rfl, rfl⟩ h

private theorem compare_eq (x y : Float) :
    x.toModel.unpack.compare y.toModel.unpack =
      if x.isNaN = false ∧ y.isNaN = false then some (compare (rank x) (rank y)) else none := by
  split
  · rename_i h
    exact compare_eq_height (held_toModel x) (held_toModel y) h.1 h.2
  · rename_i h
    exact compare_of_isNaN h

theorem lt_iff {x y : Float} : x < y ↔ x.isNaN = false ∧ y.isNaN = false ∧ rank x < rank y := by
  show decide ((x.toModel.unpack.compare y.toModel.unpack == some .lt) = true) = true ↔ _
  rw [compare_eq]
  split <;> simp_all [Int.compare_eq_lt]

theorem le_iff {x y : Float} : x ≤ y ↔ x.isNaN = false ∧ y.isNaN = false ∧ rank x ≤ rank y := by
  show decide ((x.toModel.unpack.compare y.toModel.unpack).any (·.isLE) = true) = true ↔ _
  rw [compare_eq]
  split <;> simp_all [Int.isLE_compare]

theorem beq_iff {x y : Float} : (x == y) = true ↔ x.isNaN = false ∧ y.isNaN = false ∧ rank x = rank y := by
  show (x.toModel.unpack.compare y.toModel.unpack == some .eq) = true ↔ _
  rw [compare_eq]
  split <;> simp_all

theorem rank_le_top (x : Float) : rank x ≤ top := by
  have h := held_toModel x
  unfold rank top
  generalize x.toModel.unpack = u at h
  rcases u with s | _ | s | ⟨s, m, e, hm⟩ <;> simp only [Held] at h <;> try cases s
  all_goals simp only [height, Sign.apply]
  all_goals omega

theorem isNaN_neg (x : Float) : (-x).isNaN = x.isNaN := by
  show (UnpackedFloat.unpack Format.binary64 (UnpackedFloat.pack Format.binary64 x.toModel.unpack.neg)).isNaN = _
  have h := held_toModel x
  rw [isNaN_eq_unpack]
  generalize x.toModel.unpack = u at h
  rw [unpack_pack (by rcases u with _ | _ | _ | _ <;> exact h)]
  rcases u with _ | _ | _ | _ <;> rfl

theorem rank_neg (x : Float) : rank (-x) = -rank x := by
  show height (UnpackedFloat.unpack Format.binary64 (UnpackedFloat.pack Format.binary64 x.toModel.unpack.neg)) = _
  have h := held_toModel x
  unfold rank
  generalize x.toModel.unpack = u at h
  rw [unpack_pack (by rcases u with _ | _ | _ | _ <;> exact h)]
  rcases u with s | _ | s | ⟨s, m, e, hm⟩
  · cases s <;> rfl
  · rfl
  · rfl
  · cases s
    · exact (Int.neg_neg _).symm
    · rfl

theorem neg_top_le_rank (x : Float) : -top ≤ rank x := by
  have h := rank_le_top (-x)
  rw [rank_neg] at h
  omega

@[simp] theorem rank_infinity : rank infinity = top := by decide +kernel
@[simp] theorem isNaN_infinity : infinity.isNaN = false := by decide +kernel
@[simp] theorem rank_neg_infinity : rank (-infinity) = -top := by rw [rank_neg, rank_infinity]
@[simp] theorem isNaN_neg_infinity : (-infinity).isNaN = false := by rw [isNaN_neg, isNaN_infinity]

private theorem unpack_eq_infinity {u : UnpackedFloat} {s : Sign} (h : Held u)
    (ht : top ≤ s.apply (height u)) : u = .infinity s := by
  unfold top at ht
  rcases u with t | _ | t | ⟨t, m, e, hm⟩ <;> simp only [Held] at h <;> cases s <;> try cases t
  all_goals first
    | rfl
    | (simp only [height, Sign.apply] at ht; omega)

private theorem eq_of_unpack {x y : Float} (h : x.toModel.unpack = y.toModel.unpack) : x = y := by
  have hbits := (unpack_inj_of_valid x.toModel.valid y.toModel.valid).mp h
  exact Float.toBits_inj.mp (UInt64.toBitVec_inj.mp hbits)

/-- No other score reaches the infinity. -/
theorem eq_infinity_of_rank {x : Float} (h : top ≤ rank x) : x = infinity := by
  have hx := unpack_eq_infinity (s := .positive) (held_toModel x) h
  have hinf := unpack_eq_infinity (s := .positive) (held_toModel infinity) (Int.le_of_eq rank_infinity.symm)
  exact eq_of_unpack (hx.trans hinf.symm)

theorem eq_neg_infinity_of_rank {x : Float} (h : rank x ≤ -top) : x = -infinity := by
  have hlow {y : Float} (hy : rank y ≤ -top) : y.toModel.unpack = .infinity .negative :=
    unpack_eq_infinity (held_toModel y) (by show top ≤ -rank y; omega)
  exact eq_of_unpack ((hlow h).trans (hlow (Int.le_of_eq rank_neg_infinity)).symm)

/-- The finite scores are the numbers strictly between the infinities. -/
theorem isFinite_iff {x : Float} : x.isFinite = true ↔ x.isNaN = false ∧ -top < rank x ∧ rank x < top := by
  show x.toModel.unpack.isFinite = true ↔ x.toModel.unpack.isNaN = false ∧ _
  have h := held_toModel x
  unfold rank top
  generalize x.toModel.unpack = u at h
  rcases u with s | _ | s | ⟨s, m, e, hm⟩ <;> simp only [Held] at h <;>
    simp only [UnpackedFloat.isFinite, UnpackedFloat.isNaN, height]
  case infinity => cases s <;> simp [Sign.apply]
  case finite => cases s <;> simp only [Sign.apply, true_and, true_iff] <;> omega
  all_goals simp

@[simp] theorem rank_zero : rank 0 = 0 := by decide +kernel
@[simp] theorem isNaN_zero : (0 : Float).isNaN = false := by decide +kernel

/-! ### No rank is left out -/

private theorem exists_height {n : Nat} (h : (n : Int) ≤ top) :
    ∃ u, Held u ∧ u.isNaN = false ∧ height u = n := by
  have htop : n ≤ 0x7FF0000000000000 := by unfold top at h; omega
  by_cases hzero : n = 0
  · exact ⟨.zero .positive, trivial, rfl, by rw [hzero]; rfl⟩
  by_cases hinf : n = 0x7FF0000000000000
  · exact ⟨.infinity .positive, trivial, rfl, by rw [hinf]; rfl⟩
  by_cases hsmall : n < 0x20000000000000
  · refine ⟨.finite .positive n (-1074) (by omega), ⟨hsmall, by omega⟩, rfl, ?_⟩
    simp only [height, Sign.apply]
    omega
  · -- a mantissa that fills its bits, and the exponent that is left
    refine ⟨.finite .positive (0x10000000000000 + n % 0x10000000000000) (n / 0x10000000000000 - 1075 : Int) (by omega),
      ?_, rfl, ?_⟩
    · simp only [Held]
      omega
    · simp only [height, Sign.apply]
      omega

theorem exists_rank {r : Int} (hlow : -top ≤ r) (hhigh : r ≤ top) : ∃ x : Float, x.isNaN = false ∧ rank x = r := by
  have hnat : ∀ n : Nat, (n : Int) ≤ top → ∃ x : Float, x.isNaN = false ∧ rank x = n := by
    intro n hn
    obtain ⟨u, hu, hnan, hheight⟩ := exists_height hn
    have hunpack : (Float.ofModel (.pack u)).toModel.unpack = u := unpack_pack hu
    exact ⟨Float.ofModel (.pack u), by rw [isNaN_eq_unpack, hunpack, hnan], by rw [rank, hunpack, hheight]⟩
  by_cases hr : 0 ≤ r
  · obtain ⟨x, hx, hrank⟩ := hnat r.toNat (by omega)
    exact ⟨x, hx, by omega⟩
  · obtain ⟨x, hx, hrank⟩ := hnat (-r).toNat (by omega)
    exact ⟨-x, by rw [isNaN_neg, hx], by rw [rank_neg]; omega⟩

end TreeSearch.Score
