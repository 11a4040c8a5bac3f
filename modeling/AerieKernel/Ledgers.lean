import Mathlib.Algebra.BigOperators.Group.List.Basic
import Mathlib.Tactic

/-!
# Ledgers

A ledger gives each account a value in a commutative group, and an entry adds an
amount to one account.  The value of an account after some entries is the value
before plus the sum of the amounts for it, in whatever order they are entered, and
entering the negatives takes them back.
-/

namespace AerieKernel.Ledger

variable {ι G : Type*} [DecidableEq ι] [AddCommGroup G]

variable (ledger : ι → G)

def post (entry : ι × G) : ι → G :=
  Function.update ledger entry.1 (ledger entry.1 + entry.2)

def postAll (entries : List (ι × G)) : ι → G :=
  entries.foldl post ledger

variable (account : ι) (entries : List (ι × G))

def total : G :=
  ((entries.filter (·.1 = account)).map Prod.snd).sum

@[simp] theorem total_nil : total account ([] : List (ι × G)) = 0 := rfl

theorem total_cons (entry : ι × G) (entries : List (ι × G)) : total account (entry :: entries) =
      (if entry.1 = account then entry.2 else 0) + total account entries := by
  by_cases heq : entry.1 = account <;> simp [total, heq]

theorem postAll_apply (account : ι) :
    postAll ledger entries account = ledger account + total account entries := by
  induction entries generalizing ledger with
  | nil => simp [postAll]
  | cons entry entries ih =>
    have hstep : postAll ledger (entry :: entries) = postAll (post ledger entry) entries := rfl
    rw [hstep, ih, total_cons, ← add_assoc]
    congr 1
    by_cases heq : entry.1 = account
    · simp [post, ← heq]
    · simp [post, heq, Function.update_of_ne (Ne.symm heq)]

def negated : List (ι × G) :=
  entries.map fun entry => (entry.1, -entry.2)

theorem total_negated : total account (negated entries) = -total account entries := by
  induction entries with
  | nil => simp [negated]
  | cons entry entries ih =>
    have hstep : negated (entry :: entries) = (entry.1, -entry.2) :: negated entries := rfl
    rw [hstep, total_cons, total_cons, ih]
    by_cases heq : entry.1 = account <;> simp [heq, add_comm]

theorem postAll_negated : postAll (postAll ledger entries) (negated entries) = ledger := by
  funext account
  rw [postAll_apply, postAll_apply, total_negated, add_neg_cancel_right]

end AerieKernel.Ledger
