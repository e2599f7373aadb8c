import Mathlib
import MipModel.Linearization.Naming
import MipModel.Proofs.NearestIntegers
import MipModel.Proofs.Reachability

/-!
# Computed indices

An index that is computed goes through the numbers of its expression, although the values of symbols
are integers of 64 bits, which are not all among the numbers. The value of a symbol is rounded when
it is converted, and a sum is rounded again. The result is an integer whenever it is finite; it is an
index if it has 64 bits, whether or not it is the integer that was meant (`computed_index_rounded`).
Integers that end in zeros after 53 places are safe, all those up to `2 ^ 53` among them.
-/

namespace MipModel

open Binary64

namespace Binary64

variable {x : Float} {n : Int}

theorem short_of_le (small : n.natAbs ≤ 2 ^ 53) : Short n := by
  obtain less | same := small.lt_or_eq
  · exact ⟨n.natAbs, 0, less, (mul_one _).symm⟩
  · exact ⟨1, 53, by decide, by rw [same, one_mul]⟩

theorem finite_of_integer? (h : integer? x = some n) : x.isFinite = true := by
  cases finite : x.isFinite with
  | true => rfl
  | false =>
      rw [(sub_round_of_not_finite finite).1] at h
      cases h

/-- A finite number that is an integer is an index if it has 64 bits. -/
theorem index?_of_quantity (finite : x.isFinite = true)
    (value : quantity x = ((n : ℚ) : WithTop ℚ)) :
    Scalar.index? x = if Index.inRange n then some n else none := by
  have integer : Scalar.integer? x = some n :=
    (integer?_eq_some_iff (number_of_finite finite)).mpr value
  rw [Scalar.index?, integer]
  rfl

end Binary64

section Computed

variable {scope : Scope Float} {s : String} {v c : Int} {k : Float}

/-- A computed index is the integer that its expression stands for. -/
theorem resolve_computed {e : Expr Float} {x : Float} (evaluated : e.constantIn scope = .ok x)
    (finite : x.isFinite = true) (value : quantity x = ((v : ℚ) : WithTop ℚ)) :
    (IndexExpr.computed e).resolve scope =
      if Index.inRange v then .ok (.value v) else .error (.nonIntegralIndex e.text) := by
  have index := index?_of_quantity finite value
  simp only [IndexExpr.resolve, evaluated, bind, Except.bind, index]
  cases Index.inRange v <;> rfl

theorem natAbs_le_of_inRange (h : Index.inRange v = true) : v.natAbs ≤ 2 ^ 63 := by
  obtain ⟨low, high⟩ : -9223372036854775808 ≤ v ∧ v ≤ 9223372036854775807 := by
    simpa [Index.inRange] using h
  omega

/-- The number that a bound symbol stands for. -/
theorem constantIn_symbol (bound : scope.lookup? s = some v) :
    (Expr.symbol s).constantIn scope = .ok (Float.ofInt v) := by
  rw [Expr.constantIn, Scope.number, bound]
  rfl

/-- The index that is computed as the sum of a symbol and a number is the value of the symbol,
rounded, plus the number, rounded again; it is refused if it has more than 64 bits. So it is the
index that was meant as long as rounding changes neither the value nor the sum. A symbol is the same
index in an expression and on its own exactly if its value is not changed by rounding. -/
theorem computed_index_rounded (bound : scope.lookup? s = some v)
    (range : Index.inRange v = true) (offset : Scalar.integer? k = some c)
    (range' : Index.inRange c = true) :
    let shifted : Expr Float := .add (.symbol s) (.const k)
    let n := nearest (nearest v + c)
    ((IndexExpr.computed shifted).resolve scope =
      if Index.inRange n then .ok (.value n) else .error (.nonIntegralIndex shifted.text)) ∧
    ((IndexExpr.computed (.symbol s)).resolve scope =
      if Index.inRange (nearest v) then .ok (.value (nearest v))
      else .error (.nonIntegralIndex s)) ∧
    (Short v → Short (v + c) → Index.inRange (v + c) = true →
      (IndexExpr.computed shifted).resolve scope = .ok (.value (v + c))) ∧
    ((IndexExpr.computed (.symbol s)).resolve scope = (IndexExpr.symbol s).resolve scope ↔
      Short v) := by
  intro shifted n
  have small := natAbs_le_of_inRange range
  have small' := natAbs_le_of_inRange range'
  have rounded := natAbs_nearest_le v
  obtain ⟨finite, value⟩ := quantity_ofInt (n := v) (by omega)
  have finite' := finite_of_integer? offset
  have value' := (integer?_eq_some_iff (number_of_finite finite')).mp offset
  obtain ⟨finiteSum, valueSum⟩ := quantity_add finite finite' value value' (by omega)
  have evaluated : shifted.constantIn scope = .ok (Float.ofInt v + k) := by
    rw [Expr.constantIn, constantIn_symbol bound, Expr.constantIn]
    rfl
  have sum := resolve_computed evaluated finiteSum valueSum
  have single := resolve_computed (constantIn_symbol bound) finite value
  refine ⟨sum, single, fun short short' inside => ?_, ?_⟩
  · rw [sum, nearest_eq_iff.mpr short, nearest_eq_iff.mpr short', if_pos inside]
  · have plain : (IndexExpr.symbol s).resolve scope = .ok (.value v) := by
      rw [IndexExpr.resolve, bound]
    rw [single, plain, ← nearest_eq_iff]
    constructor
    · intro same
      split at same
      · exact Pattern.Component.value.inj (Except.ok.inj same)
      · cases same
    · intro same
      rw [same, if_pos range]

/-- A small value is shifted by a small offset. -/
theorem small_index_shifted :
    let scope : Scope Float := Scope.empty.bind "i" 7
    scope.lookup? "i" = some 7 ∧ Index.inRange 7 = true ∧
      Scalar.integer? (-10 : Float) = some (-10) ∧
      (IndexExpr.computed (.add (.symbol "i") (.const (-10)))).resolve scope =
        .ok (.value (-3)) ∧
      (IndexExpr.computed (.symbol "i")).resolve scope = .ok (.value 7) := by
  intro scope
  have bound : scope.lookup? "i" = some 7 := rfl
  have offset : Scalar.integer? (-10 : Float) = some (-10) := by decide +kernel
  obtain ⟨-, -, exact, plain⟩ := computed_index_rounded bound rfl offset rfl
  refine ⟨bound, rfl, offset, exact ?_ ?_ rfl, plain.mpr ?_⟩ <;> exact short_of_le (by decide)

/-- A value of 54 places selects its neighbour, in an expression that does not even change it. -/
theorem neighbour_selected :
    let i : Int := 9007199254740993
    let scope : Scope Float := Scope.empty.bind "i" i
    let m : Model Float := .build .minimize .standard [.registerAs "a" .free, .registerAs "b" .free,
      .defineFamily (.ofList "f" [([9007199254740992], .var "a"), ([i], .var "b")])]
    m.Reachable ∧ Index.inRange i = true ∧ Scalar.integer? (0 : Float) = some 0 ∧
      (IndexExpr.computed (.add (.symbol "i") (.const 0))).resolve scope =
        .ok (.value 9007199254740992) ∧
      (Expr.var "f" [.symbol "i"]).evaluate m.families scope = .ok (.var "b") ∧
      (Expr.var "f" [.computed (.symbol "i")]).evaluate m.families scope = .ok (.var "a") := by
  intro i scope m
  exact ⟨Model.reachable_build _ _ _, by decide +kernel, by decide +kernel, by decide +kernel,
    by decide +kernel, by decide +kernel⟩

end Computed
end MipModel
