import Patchbay.Dict
import Patchbay.Json.Number

/-!
# JSON values

What travels along the connections of a graph. The members of an object are kept in key order
without repeats; `Value.object` of anything else is not a value that the library builds, and
`ofMembers` brings any list of members into that form.
-/

namespace Patchbay.Json

inductive Value where
  | null
  | bool (value : Bool)
  | number (value : Number)
  | string (value : String)
  | array (items : List Value)
  | object (members : List (String × Value))
  deriving Inhabited

namespace Value

mutual
/-- Equality of values; doubles are compared as numbers. -/
protected def beq : Value → Value → Bool
  | .null, .null => true
  | .bool a, .bool b => a == b
  | .number a, .number b => a == b
  | .string a, .string b => a == b
  | .array a, .array b => Value.beqItems a b
  | .object a, .object b => Value.beqMembers a b
  | _, _ => false
protected def beqItems : List Value → List Value → Bool
  | [], [] => true
  | a :: as, b :: bs => Value.beq a b && Value.beqItems as bs
  | _, _ => false
protected def beqMembers : List (String × Value) → List (String × Value) → Bool
  | [], [] => true
  | (k, a) :: as, (l, b) :: bs => k == l && Value.beq a b && Value.beqMembers as bs
  | _, _ => false
end

instance : BEq Value := ⟨Value.beq⟩

mutual
protected theorem beq_refl : ∀ v : Value, v.beq v = true
  | .null => rfl
  | .bool b => by simp [Value.beq]
  | .number n => n.beq_refl
  | .string s => by simp [Value.beq]
  | .array items => beqItems_refl items
  | .object members => beqMembers_refl members
theorem beqItems_refl : ∀ vs : List Value, Value.beqItems vs vs = true
  | [] => rfl
  | v :: vs => by simp [Value.beqItems, Value.beq_refl v, beqItems_refl vs]
theorem beqMembers_refl : ∀ ms : List (String × Value), Value.beqMembers ms ms = true
  | [] => rfl
  | (k, v) :: ms => by simp [Value.beqMembers, Value.beq_refl v, beqMembers_refl ms]
end

mutual
protected theorem beq_symm : ∀ {a b : Value}, a.beq b = true → b.beq a = true
  | .null, .null, _ => rfl
  | .bool x, .bool y, h => BEq.symm (show (x == y) = true from h)
  | .number x, .number y, h => Number.beq_symm (show x.beq y = true from h)
  | .string x, .string y, h => BEq.symm (show (x == y) = true from h)
  | .array as, .array bs, h => beqItems_symm (show Value.beqItems as bs = true from h)
  | .object as, .object bs, h => beqMembers_symm (show Value.beqMembers as bs = true from h)
theorem beqItems_symm : ∀ {as bs : List Value},
    Value.beqItems as bs = true → Value.beqItems bs as = true
  | [], [], _ => rfl
  | a :: as, b :: bs, h => by
    simp only [Value.beqItems, Bool.and_eq_true] at h ⊢
    exact ⟨Value.beq_symm h.1, beqItems_symm h.2⟩
theorem beqMembers_symm : ∀ {as bs : List (String × Value)},
    Value.beqMembers as bs = true → Value.beqMembers bs as = true
  | [], [], _ => rfl
  | (k, a) :: as, (l, b) :: bs, h => by
    simp only [Value.beqMembers, Bool.and_eq_true] at h ⊢
    exact ⟨⟨BEq.symm h.1.1, Value.beq_symm h.1.2⟩, beqMembers_symm h.2⟩
end

mutual
protected theorem beq_trans : ∀ {a b c : Value}, a.beq b = true → b.beq c = true →
    a.beq c = true
  | .null, .null, .null, _, _ => rfl
  | .bool x, .bool y, .bool z, h, h' =>
    BEq.trans (show (x == y) = true from h) (show (y == z) = true from h')
  | .number x, .number y, .number z, h, h' =>
    Number.beq_trans (show x.beq y = true from h) (show y.beq z = true from h')
  | .string x, .string y, .string z, h, h' =>
    BEq.trans (show (x == y) = true from h) (show (y == z) = true from h')
  | .array as, .array bs, .array cs, h, h' =>
    beqItems_trans (show Value.beqItems as bs = true from h)
      (show Value.beqItems bs cs = true from h')
  | .object as, .object bs, .object cs, h, h' =>
    beqMembers_trans (show Value.beqMembers as bs = true from h)
      (show Value.beqMembers bs cs = true from h')
theorem beqItems_trans : ∀ {as bs cs : List Value}, Value.beqItems as bs = true →
    Value.beqItems bs cs = true → Value.beqItems as cs = true
  | [], [], [], _, _ => rfl
  | a :: as, b :: bs, c :: cs, h, h' => by
    simp only [Value.beqItems, Bool.and_eq_true] at h h' ⊢
    exact ⟨Value.beq_trans h.1 h'.1, beqItems_trans h.2 h'.2⟩
theorem beqMembers_trans : ∀ {as bs cs : List (String × Value)},
    Value.beqMembers as bs = true → Value.beqMembers bs cs = true →
    Value.beqMembers as cs = true
  | [], [], [], _, _ => rfl
  | (k, a) :: as, (l, b) :: bs, (m, c) :: cs, h, h' => by
    simp only [Value.beqMembers, Bool.and_eq_true] at h h' ⊢
    exact ⟨⟨BEq.trans h.1.1 h'.1.1, Value.beq_trans h.1.2 h'.1.2⟩, beqMembers_trans h.2 h'.2⟩
end

instance : EquivBEq Value where
  rfl {a} := a.beq_refl
  symm h := Value.beq_symm h
  trans h h' := Value.beq_trans h h'

/-- The object with these members; of two with one key the later stays. -/
def ofMembers (members : List (String × Value)) : Value :=
  .object (Dict.ofList members).entries

def strings (items : List String) : Value := .array (items.map .string)

/-- The double as a value. The format has no infinities, and null stands for them. -/
def ofFloat (x : Float) : Value := ((Number.ofFloat? x).map number).getD .null

def toFloat? : Value → Option Float
  | .number n => some n.toFloat
  | _ => none

def toString? : Value → Option String
  | .string s => some s
  | _ => none

def toBool? : Value → Option Bool
  | .bool b => some b
  | _ => none

end Value

end Patchbay.Json
