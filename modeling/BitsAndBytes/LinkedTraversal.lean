import Mathlib.Data.List.Basic

/-! # Traversing a null-terminated chain of nodes -/

namespace BitsAndBytes.LinkedTraversal

variable {Addr Acc : Type*}

def traverse (next : Addr → Option Addr) (body : Acc → Addr → ForInStep Acc) :
    Nat → Option Addr → Acc → Option Acc
  | _, none, acc => some acc
  | 0, some _, _ => none
  | bound + 1, some current, acc =>
    match body acc current with
    | .done result => some result
    | .yield result => traverse next body bound (next current) result

def visit (body : Acc → Addr → ForInStep Acc) : List Addr → Acc → Acc
  | [], acc => acc
  | node :: nodes, acc =>
    match body acc node with
    | .done result => result
    | .yield result => visit body nodes result

/-- The nodes from `first` up to `last`, following `next`. -/
def Path (next : Addr → Option Addr) : Option Addr → List Addr → Option Addr → Prop
  | first, [], last => first = last
  | first, node :: nodes, last => first = some node ∧ Path next (next node) nodes last

theorem traverse_of_path {next : Addr → Option Addr}
    (body : Acc → Addr → ForInStep Acc) {bound : Nat} {first : Option Addr}
    {nodes : List Addr} (acc : Acc) (path : Path next first nodes none)
    (fits : nodes.length ≤ bound) :
    traverse next body bound first acc = some (visit body nodes acc) := by
  induction nodes generalizing bound first acc with
  | nil =>
    subst first
    cases bound <;> rfl
  | cons node nodes ih =>
    obtain ⟨rfl, rest⟩ := path
    cases bound with
    | zero => simp at fits
    | succ bound =>
      simp only [traverse, visit]
      cases body acc node with
      | done result => rfl
      | yield result => exact ih result rest (by simpa using fits)

theorem visit_collect (nodes acc : List Addr) :
    visit (fun found node => ForInStep.yield (found ++ [node])) nodes acc = acc ++ nodes := by
  induction nodes generalizing acc with
  | nil => simp [visit]
  | cons node nodes ih => simp [visit, ih]

theorem visit_find (test : Addr → Bool) (nodes : List Addr) : visit (fun (_ : Option Addr) node =>
        if test node then .done (some node) else .yield none) nodes none =
      nodes.find? test := by
  induction nodes with
  | nil => rfl
  | cons node nodes ih =>
    by_cases passes : test node
    · simp [visit, passes]
    · simp [visit, passes, ih]

theorem visit_yield (update : Acc → Addr → Acc) (nodes : List Addr) (acc : Acc) :
    visit (fun acc node => .yield (update acc node)) nodes acc = nodes.foldl update acc := by
  induction nodes generalizing acc with
  | nil => rfl
  | cons node nodes ih => exact ih (update acc node)

end BitsAndBytes.LinkedTraversal
