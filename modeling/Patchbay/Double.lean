/-!
# Doubles as numbers

Two doubles are equal if they stand for the same number. So the two zeros are equal, which
differ in their bits, and NaN equals nothing, not even itself.

What is proved here:
  1. `beq_iff`: equal doubles are the same but for the sign of a zero, and are not NaN.
  2. Equality of doubles is symmetric and transitive, and reflexive on finite ones.
  3. `Near.add` and so on: sums, differences and products do not tell one zero from the other,
     and neither do quotients unless the divisor is zero.
-/

namespace Patchbay.Double

open Float.Model

/-- The same double but for the sign of a zero. -/
def Same (x y : UnpackedFloat) : Prop := x = y ∨ ∃ s t, x = .zero s ∧ y = .zero t

theorem Same.refl (x : UnpackedFloat) : Same x x := .inl rfl

theorem Same.symm {x y : UnpackedFloat} (h : Same x y) : Same y x := by
  rcases h with rfl | ⟨s, t, rfl, rfl⟩
  · exact .refl _
  · exact .inr ⟨t, s, rfl, rfl⟩

theorem Same.trans {x y z : UnpackedFloat} (h : Same x y) (h' : Same y z) : Same x z := by
  rcases h with rfl | ⟨s, t, rfl, rfl⟩
  · exact h'
  · rcases h' with rfl | ⟨_, u, _, rfl⟩
    · exact .inr ⟨s, t, rfl, rfl⟩
    · exact .inr ⟨s, u, rfl, rfl⟩

theorem same_nan_iff {x y : UnpackedFloat} (h : Same x y) :
    x = .notANumber ↔ y = .notANumber := by
  rcases h with rfl | ⟨s, t, rfl, rfl⟩ <;> simp

theorem Same.absurd {x y : UnpackedFloat} (h : Same x y) (hne : x ≠ y)
    (hzero : ∀ s, x ≠ .zero s) : False := by
  rcases h with heq | ⟨s, _, heq, -⟩
  · exact hne heq
  · exact hzero s heq

/-- Two doubles of one sign that are neither zero nor infinite are compared by their parts. -/
theorem finite_beq_iff (s : UnpackedFloat.Sign) {m m' : Nat} {e e' : Int} (hm : 0 < m)
    (hm' : 0 < m') :
    UnpackedFloat.beq (.finite s m e hm) (.finite s m' e' hm') = true ↔ e = e' ∧ m = m' := by
  cases s with
  | negative =>
    show (some ((compare e e').then (compare m m')).swap == some Ordering.eq) = true ↔ _
    simp [Ordering.then_eq_eq]
  | positive =>
    show (some ((compare e e').then (compare m m')) == some Ordering.eq) = true ↔ _
    simp [Ordering.then_eq_eq]

theorem unpacked_beq_iff {x y : UnpackedFloat} :
    x.beq y = true ↔ Same x y ∧ x ≠ .notANumber := by
  cases x with
  | notANumber => exact iff_of_false Bool.false_ne_true fun h => h.2 rfl
  | infinity s =>
    cases y with
    | infinity t =>
      cases s <;> cases t
      · exact iff_of_true rfl ⟨.refl _, nofun⟩
      · exact iff_of_false Bool.false_ne_true fun h => h.1.absurd nofun nofun
      · exact iff_of_false Bool.false_ne_true fun h => h.1.absurd nofun nofun
      · exact iff_of_true rfl ⟨.refl _, nofun⟩
    | _ =>
      refine iff_of_false ?_ fun h => h.1.absurd nofun nofun
      cases s <;> exact Bool.false_ne_true
  | zero s =>
    cases y with
    | zero t => exact iff_of_true rfl ⟨.inr ⟨s, t, rfl, rfl⟩, nofun⟩
    | notANumber =>
      exact iff_of_false Bool.false_ne_true fun h => h.1.symm.absurd nofun nofun
    | infinity t | finite t m e h =>
      refine iff_of_false ?_ fun h => h.1.symm.absurd nofun nofun
      cases t <;> exact Bool.false_ne_true
  | finite s m e hm =>
    cases y with
    | finite t m' e' hm' =>
      by_cases hst : s = t
      · subst hst
        rw [finite_beq_iff]
        constructor
        · rintro ⟨rfl, rfl⟩
          exact ⟨.refl _, nofun⟩
        · rintro ⟨heq | ⟨_, _, heq, -⟩, -⟩
          · cases heq
            exact ⟨rfl, rfl⟩
          · cases heq
      · refine iff_of_false ?_ fun h => h.1.absurd (fun heq => ?_) nofun
        · cases s <;> cases t
          · exact absurd rfl hst
          · exact Bool.false_ne_true
          · exact Bool.false_ne_true
          · exact absurd rfl hst
        · cases heq
          exact hst rfl
    | notANumber =>
      exact iff_of_false Bool.false_ne_true fun h => h.1.absurd nofun nofun
    | infinity t =>
      refine iff_of_false ?_ fun h => h.1.absurd nofun nofun
      cases s <;> cases t <;> exact Bool.false_ne_true
    | zero t =>
      refine iff_of_false ?_ fun h => h.1.absurd nofun nofun
      cases s <;> exact Bool.false_ne_true

theorem beq_iff {a b : Float} :
    (a == b) = true ↔ Same a.toModel.unpack b.toModel.unpack ∧ a.toModel.unpack ≠ .notANumber :=
  unpacked_beq_iff

instance partialEquivBEq : PartialEquivBEq Float where
  symm h := by
    obtain ⟨h, hn⟩ := beq_iff.1 h
    exact beq_iff.2 ⟨h.symm, fun e => hn ((same_nan_iff h).2 e)⟩
  trans h h' := by
    obtain ⟨h, hn⟩ := beq_iff.1 h
    exact beq_iff.2 ⟨h.trans (beq_iff.1 h').1, hn⟩

/-- A finite double equals itself. -/
theorem beq_self_of_isFinite {a : Float} (h : a.isFinite = true) : (a == a) = true := by
  refine beq_iff.2 ⟨.refl _, fun e => ?_⟩
  have hf : a.toModel.unpack.isFinite = true := h
  rw [e] at hf
  exact absurd hf (by decide)

/-! ## Arithmetic -/

variable {x y x' y' : UnpackedFloat} {a b a' b' : Float}

theorem same_zero (s t : UnpackedFloat.Sign) : Same (.zero s) (.zero t) := .inr ⟨s, t, rfl, rfl⟩

theorem unpack_pack_zero (s : UnpackedFloat.Sign) : (pack (.zero s)).unpack = .zero s := by
  cases s
  · rfl
  · rfl

theorem Same.pack (h : Same x y) : Same (pack x).unpack (pack y).unpack := by
  rcases h with rfl | ⟨s, t, rfl, rfl⟩
  · exact .refl _
  · rw [unpack_pack_zero, unpack_pack_zero]
    exact same_zero s t

/-- An operation that does not look at the signs of zeros gives the same. -/
theorem Same.congr {op : UnpackedFloat → UnpackedFloat → UnpackedFloat}
    (hl : ∀ s t y, Same (op (.zero s) y) (op (.zero t) y))
    (hr : ∀ s t x, Same (op x (.zero s)) (op x (.zero t)))
    (h : Same x x') (h' : Same y y') : Same (op x y) (op x' y') := by
  have hfirst : Same (op x y) (op x' y) := by
    rcases h with rfl | ⟨s, t, rfl, rfl⟩
    · exact .refl _
    · exact hl s t y
  have hsecond : Same (op x' y) (op x' y') := by
    rcases h' with rfl | ⟨s, t, rfl, rfl⟩
    · exact .refl _
    · exact hr s t x'
  exact hfirst.trans hsecond

theorem exists_add_zero (f : Format) (s t : UnpackedFloat.Sign) :
    ∃ u, UnpackedFloat.add f (.zero s) (.zero t) = .zero u := by
  cases s <;> cases t <;> exact ⟨_, rfl⟩

theorem Same.add (f : Format) (h : Same x x') (h' : Same y y') :
    Same (UnpackedFloat.add f x y) (UnpackedFloat.add f x' y') := by
  refine Same.congr (fun s t y => ?_) (fun s t x => ?_) h h'
  · cases y with
    | zero u =>
      obtain ⟨v, hv⟩ := exists_add_zero f s u
      obtain ⟨w, hw⟩ := exists_add_zero f t u
      rw [hv, hw]
      exact same_zero v w
    | _ => exact .refl _
  · cases x with
    | zero u =>
      obtain ⟨v, hv⟩ := exists_add_zero f u s
      obtain ⟨w, hw⟩ := exists_add_zero f u t
      rw [hv, hw]
      exact same_zero v w
    | _ => exact .refl _

theorem exists_sub_zero (f : Format) (s t : UnpackedFloat.Sign) :
    ∃ u, UnpackedFloat.sub f (.zero s) (.zero t) = .zero u := by
  cases s <;> cases t <;> exact ⟨_, rfl⟩

theorem Same.sub (f : Format) (h : Same x x') (h' : Same y y') :
    Same (UnpackedFloat.sub f x y) (UnpackedFloat.sub f x' y') := by
  refine Same.congr (fun s t y => ?_) (fun s t x => ?_) h h'
  · cases y with
    | zero u =>
      obtain ⟨v, hv⟩ := exists_sub_zero f s u
      obtain ⟨w, hw⟩ := exists_sub_zero f t u
      rw [hv, hw]
      exact same_zero v w
    | _ => exact .refl _
  · cases x with
    | zero u =>
      obtain ⟨v, hv⟩ := exists_sub_zero f u s
      obtain ⟨w, hw⟩ := exists_sub_zero f u t
      rw [hv, hw]
      exact same_zero v w
    | _ => exact .refl _

theorem Same.mul (f : Format) (h : Same x x') (h' : Same y y') :
    Same (UnpackedFloat.mul f x y) (UnpackedFloat.mul f x' y') := by
  refine Same.congr (fun s t y => ?_) (fun s t x => ?_) h h'
  · cases y with
    | zero u => exact same_zero _ _
    | finite u m e hm => exact same_zero _ _
    | _ => exact .refl _
  · cases x with
    | zero u => exact same_zero _ _
    | finite u m e hm => exact same_zero _ _
    | _ => exact .refl _

/-- The sign of a zero divisor decides between the two infinities, so the divisor is the same. -/
theorem Same.div (f : Format) (h : Same x x') (hy : y = y') :
    Same (UnpackedFloat.div f x y) (UnpackedFloat.div f x' y') := by
  subst hy
  rcases h with rfl | ⟨s, t, rfl, rfl⟩
  · exact .refl _
  · cases y with
    | infinity u => exact same_zero _ _
    | finite u m e hm => exact same_zero _ _
    | _ => exact .refl _

/-- The same double but for the sign of a zero. -/
def Near (a b : Float) : Prop := Same a.toModel.unpack b.toModel.unpack

theorem Near.refl (a : Float) : Near a a := Same.refl _

theorem near_of_beq (h : (a == b) = true) : Near a b := (beq_iff.1 h).1

theorem Near.isFinite_eq (h : Near a b) : a.isFinite = b.isFinite := by
  have hfinite : ∀ {x y : UnpackedFloat}, Same x y → x.isFinite = y.isFinite := by
    intro x y hor
    rcases hor with rfl | ⟨s, t, rfl, rfl⟩
    · rfl
    · rfl
  exact hfinite h

theorem Near.beq (h : Near a b) (ha : a.isFinite = true) : (a == b) = true :=
  beq_iff.2 ⟨h, (beq_iff.1 (beq_self_of_isFinite ha)).2⟩

theorem Near.add (h : Near a a') (h' : Near b b') : Near (a + b) (a' + b') :=
  (Same.add Format.binary64 h h').pack

theorem Near.sub (h : Near a a') (h' : Near b b') : Near (a - b) (a' - b') :=
  (Same.sub Format.binary64 h h').pack

theorem Near.mul (h : Near a a') (h' : Near b b') : Near (a * b) (a' * b') :=
  (Same.mul Format.binary64 h h').pack

theorem beq_zero_iff : (a == 0) = true ↔ ∃ s, a.toModel.unpack = .zero s := by
  have hzero : (0 : Float).toModel.unpack = .zero .positive := rfl
  rw [beq_iff, hzero]
  constructor
  · intro hex
    rcases hex with ⟨heq | ⟨s, t, heq, -⟩, -⟩
    · exact ⟨_, heq⟩
    · exact ⟨s, heq⟩
  · intro hex
    obtain ⟨s, heq⟩ := hex
    rw [heq]
    exact ⟨same_zero _ _, nofun⟩

theorem Near.beq_zero (h : Near a b) : (a == 0) = (b == 0) := by
  have hzero : ∀ {a b : Float}, Near a b → (a == 0) = true → (b == 0) = true := by
    intro a b h ha
    obtain ⟨s, hs⟩ := beq_zero_iff.1 ha
    rcases h with heq | ⟨_, t, -, ht⟩
    · exact beq_zero_iff.2 ⟨s, heq ▸ hs⟩
    · exact beq_zero_iff.2 ⟨t, ht⟩
  rw [Bool.eq_iff_iff]
  exact ⟨hzero h, hzero h.symm⟩

theorem Near.div (h : Near a a') (h' : Near b b') (hb : (b == 0) = false) :
    Near (a / b) (a' / b') := by
  have hdivisor : b.toModel.unpack = b'.toModel.unpack := by
    rcases h' with heq | ⟨s, -, hs, -⟩
    · exact heq
    · rw [beq_zero_iff.2 ⟨s, hs⟩] at hb
      cases hb
  exact (Same.div Format.binary64 h hdivisor).pack

end Patchbay.Double
