import Mathlib

/-!
# Lists from stacks

A list is collected on a stack, and the list is built from what is taken off the stack. Each item
comes before those that were above it, so that a list that was pushed item by item has its order
again; `fromStackToReverseList` pours the stack into another one first, and turns the list around.
-/

namespace Meld.Runtime

variable {α : Type}

/-- The loop of `from_stack_to_list`, for the stack with its top in front. -/
def fromStackToList : List α → List α → List α
  | [], ptr => ptr
  | top :: stk, ptr => fromStackToList stk (top :: ptr)

/-- The loop of `from_stack_to_reverse_list`. -/
def pourStack : List α → List α → List α
  | [], stk2 => stk2
  | top :: stk, stk2 => pourStack stk (top :: stk2)

/-- `from_stack_to_reverse_list`. -/
def fromStackToReverseList (stk : List α) : List α := fromStackToList (pourStack stk []) []

/-- A list is built from the top of the stack down. -/
theorem fromStackToList_eq (stk ptr : List α) : fromStackToList stk ptr = stk.reverse ++ ptr := by
  induction stk generalizing ptr with
  | nil => rfl
  | cons x stk ih =>
    rw [fromStackToList, ih, List.reverse_cons, List.append_assoc]
    rfl

/-- Pouring a stack onto another reverses it. -/
theorem pourStack_eq (stk stk2 : List α) : pourStack stk stk2 = stk.reverse ++ stk2 := by
  induction stk generalizing stk2 with
  | nil => rfl
  | cons x stk ih =>
    rw [pourStack, ih, List.reverse_cons, List.append_assoc]
    rfl

/-- The list has the elements in the order in which they are on the stack. -/
theorem fromStackToReverseList_eq (stk : List α) : fromStackToReverseList stk = stk := by
  rw [fromStackToReverseList, pourStack_eq, fromStackToList_eq, List.append_nil, List.append_nil,
    List.reverse_reverse]

end Meld.Runtime
