import Mathlib.Data.String.Basic
import BackendTemplates.Library.Json

namespace BackendTemplates.Json

section
variable (r : String → String → Prop) [DecidableRel r]

/-- The order on members that an order on keys gives. -/
abbrev byKey (a b : String × Json) : Prop := r a.1 b.1

mutual
/-- The same value with the members of every object sorted by key. -/
def arrange : Json → Json
  | .null => .null
  | .bool b => .bool b
  | .num n => .num n
  | .str s => .str s
  | .arr items => .arr (arrangeItems items)
  | .obj members => .obj ((arrangeMembers members).insertionSort (byKey r))

def arrangeItems : List Json → List Json
  | [] => []
  | j :: items => arrange j :: arrangeItems items

def arrangeMembers : List (String × Json) → List (String × Json)
  | [] => []
  | (k, j) :: members => (k, arrange j) :: arrangeMembers members
end

mutual
/-- Every object, at every depth, lists its members in the order of their keys. -/
def Arranged : Json → Prop
  | .arr items => ArrangedItems items
  | .obj members => members.Pairwise (byKey r) ∧ ArrangedMembers members
  | _ => True

def ArrangedItems : List Json → Prop
  | [] => True
  | j :: items => Arranged j ∧ ArrangedItems items

def ArrangedMembers : List (String × Json) → Prop
  | [] => True
  | (_, j) :: members => Arranged j ∧ ArrangedMembers members
end

variable {r}

theorem arrangeMembers_keys (members : List (String × Json)) :
    (arrangeMembers r members).map Prod.fst = members.map Prod.fst := by
  induction members with
  | nil => rfl
  | cons m members ih => simp [arrangeMembers, ih]

variable [Std.Total r] [IsTrans String r]

instance : Std.Total (byKey r) := ⟨fun a b => Std.Total.total (r := r) a.1 b.1⟩
instance : IsTrans (String × Json) (byKey r) := ⟨fun a b c => IsTrans.trans (r := r) a.1 b.1 c.1⟩

end

/-- `d[k]` on a decoded object. -/
def get? : Json → String → Option Json
  | .obj members, k => members.lookup k
  | _, _ => none

def str? : Json → Option String
  | .str s => some s
  | _ => none

def obj? : Json → Option (List (String × Json))
  | .obj members => some members
  | _ => none

end BackendTemplates.Json
