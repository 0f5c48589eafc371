import Mathlib.Data.Nat.Notation
import Mathlib.Logic.Function.Basic
import Mathlib.Data.List.Basic

/-!
# Accounts that are paid into and emptied

An account collects what is paid in at a time, and is emptied at later times. Each time hands out what was paid in
before it and not handed out yet: an entry goes to the first withdrawal after it. A withdrawal must come after the
entries and the withdrawals of its account.
-/

namespace Vpsim.Lib

/-- What is paid into an account or out of it. -/
structure Entry (α : Type) where
  account : α
  time : ℕ
  amount : ℕ

namespace Entry

variable {α : Type} [DecidableEq α] {a : α} {t : ℕ} {e w : Entry α} {entries withdrawals : List (Entry α)}
  {balance : α → ℕ}

/-- A withdrawal comes after an entry of its account. -/
def Covers (w e : Entry α) : Prop := w.account = e.account ∧ e.time < w.time

instance (w e : Entry α) : Decidable (w.Covers e) := inferInstanceAs (Decidable (_ ∧ _))

/-- The sum of the amounts. -/
def total : List (Entry α) → ℕ
  | [] => 0
  | e :: l => e.amount + total l

omit [DecidableEq α] in
theorem total_append (l l' : List (Entry α)) : total (l ++ l') = total l + total l' := by
  induction l with
  | nil => exact (Nat.zero_add _).symm
  | cons e l ih =>
    change e.amount + total (l ++ l') = e.amount + total l + total l'
    rw [ih, Nat.add_assoc]

/-- An entry of an account that was not withdrawn. -/
def Remains (a : α) (withdrawals : List (Entry α)) (e : Entry α) : Prop :=
  e.account = a ∧ ∀ w ∈ withdrawals, ¬ w.Covers e

instance (a : α) (withdrawals : List (Entry α)) (e : Entry α) : Decidable (Remains a withdrawals e) :=
  inferInstanceAs (Decidable (_ ∧ _))

/-- An entry whose first withdrawal is `w`. -/
def GoesTo (w : Entry α) (withdrawals : List (Entry α)) (e : Entry α) : Prop :=
  w.Covers e ∧ ∀ w' ∈ withdrawals, w'.Covers e → w.time ≤ w'.time

instance (w : Entry α) (withdrawals : List (Entry α)) (e : Entry α) : Decidable (GoesTo w withdrawals e) :=
  inferInstanceAs (Decidable (_ ∧ _))

/-- Of the withdrawals that come after an entry, the entry goes to the first. -/
theorem exists_goesTo (hw : w ∈ withdrawals) (hcovers : w.Covers e) : ∃ w ∈ withdrawals, GoesTo w withdrawals e := by
  induction h : w.time using Nat.strongRecOn generalizing w with
  | _ n ih =>
    by_cases hfirst : ∀ w' ∈ withdrawals, w'.Covers e → w.time ≤ w'.time
    · exact ⟨w, hw, hcovers, hfirst⟩
    · simp only [not_forall, Nat.not_le] at hfirst
      obtain ⟨w', hw', hcovers', hlt⟩ := hfirst
      exact ih w'.time (h ▸ hlt) hw' hcovers' rfl

/-- An entry that goes to no withdrawal remains. -/
theorem remains_iff : Remains a withdrawals e ↔ e.account = a ∧ ∀ w ∈ withdrawals, ¬ GoesTo w withdrawals e := by
  refine and_congr_right fun _ => ⟨fun hopen w hw hgoes => hopen w hw hgoes.1, fun hnone w hw hcovers => ?_⟩
  obtain ⟨w', hw', hgoes⟩ := exists_goesTo hw hcovers
  exact hnone w' hw' hgoes

/-- Each account has what remains, and each withdrawal handed out the entries that go to it. -/
structure Balanced (entries withdrawals : List (Entry α)) (balance : α → ℕ) : Prop where
  balance : ∀ a, balance a = total (entries.filter (Remains a withdrawals))
  amount : ∀ w ∈ withdrawals, w.amount = total (entries.filter (GoesTo w withdrawals))

/-- Without entries and withdrawals, empty accounts are balanced. -/
theorem balanced_nil : Balanced ([] : List (Entry α)) [] fun _ => 0 := ⟨fun _ => rfl, nofun⟩

/-- Paying in behind all withdrawals of the account keeps the balance. -/
theorem Balanced.deposit (h : Balanced entries withdrawals balance) (hnew : ∀ w ∈ withdrawals, ¬ w.Covers e) :
    Balanced (entries ++ [e]) withdrawals
      (Function.update balance e.account (balance e.account + e.amount)) := by
  constructor
  · intro a
    rw [List.filter_append, total_append]
    by_cases ha : a = e.account
    · subst ha
      have hremains : Remains e.account withdrawals e := ⟨rfl, hnew⟩
      have hfilter : [e].filter (Remains e.account withdrawals) = [e] :=
        List.filter_cons_of_pos (decide_eq_true hremains)
      rw [Function.update_self, h.balance, hfilter]
      rfl
    · have hother : ¬ Remains a withdrawals e := fun hremains => ha hremains.1.symm
      have hfilter : [e].filter (Remains a withdrawals) = [] := List.filter_cons_of_neg (by rwa [decide_eq_true_eq])
      rw [Function.update_of_ne ha, h.balance, hfilter]
      rfl
  · intro w hw
    have hother : ¬ GoesTo w withdrawals e := fun hgoes => hnew w hw hgoes.1
    have hfilter : [e].filter (GoesTo w withdrawals) = [] := List.filter_cons_of_neg (by rwa [decide_eq_true_eq])
    rw [List.filter_append, total_append, hfilter]
    exact h.amount w hw

/-- Emptying an account after all its entries and withdrawals keeps the balance. -/
theorem Balanced.withdraw (h : Balanced entries withdrawals balance)
    (hentries : ∀ e ∈ entries, e.account = a → e.time < t)
    (hwithdrawals : ∀ w ∈ withdrawals, w.account = a → w.time < t) :
    Balanced entries (withdrawals ++ [⟨a, t, balance a⟩]) (Function.update balance a 0) := by
  constructor
  · intro b
    by_cases hb : b = a
    · subst hb
      have hnone : entries.filter (Remains b (withdrawals ++ [⟨b, t, balance b⟩])) = [] := by
        apply List.filter_eq_nil_iff.2
        intro e he hremains
        rw [decide_eq_true_eq] at hremains
        have hlast := hremains.2 ⟨b, t, balance b⟩ (List.mem_append_right _ (List.mem_singleton_self _))
        exact hlast ⟨hremains.1.symm, hentries e he hremains.1⟩
      rw [Function.update_self, hnone]
      rfl
    · rw [Function.update_of_ne hb, h.balance]
      congr 1
      apply List.filter_congr
      intro e _
      apply decide_eq_decide.2
      apply and_congr_right
      intro heb
      constructor
      · intro hopen w hw
        rcases List.mem_append.1 hw with hw | hw
        · exact hopen w hw
        · rw [List.mem_singleton.1 hw]
          exact fun hcovers => hb (heb.symm.trans hcovers.1.symm)
      · exact fun hopen w hw => hopen w (List.mem_append_left _ hw)
  · intro w hw
    rcases List.mem_append.1 hw with hw | hw
    · rw [h.amount w hw]
      congr 1
      apply List.filter_congr
      intro e _
      apply decide_eq_decide.2
      apply and_congr_right
      intro hcovers
      constructor
      · intro hfirst w' hw' hcovers'
        rcases List.mem_append.1 hw' with hw' | hw'
        · exact hfirst w' hw' hcovers'
        · rw [List.mem_singleton.1 hw'] at hcovers' ⊢
          exact Nat.le_of_lt (hwithdrawals w hw (hcovers.1.trans hcovers'.1.symm))
      · exact fun hfirst w' hw' => hfirst w' (List.mem_append_left _ hw')
    · rw [List.mem_singleton.1 hw]
      change balance a = _
      rw [h.balance]
      congr 1
      apply List.filter_congr
      intro e he
      apply decide_eq_decide.2
      constructor
      · intro ⟨hea, hopen⟩
        refine ⟨⟨hea.symm, hentries e he hea⟩, fun w' hw' hcovers' => ?_⟩
        rcases List.mem_append.1 hw' with hw' | hw'
        · exact absurd hcovers' (hopen w' hw')
        · exact Nat.le_of_eq (congrArg _ (List.mem_singleton.1 hw').symm)
      · intro ⟨hcovers, hfirst⟩
        refine ⟨hcovers.1.symm, fun w' hw' hcovers' => ?_⟩
        have hlt := hwithdrawals w' hw' (hcovers'.1.trans hcovers.1.symm)
        exact absurd (hfirst w' (List.mem_append_left _ hw') hcovers') (Nat.not_le_of_lt hlt)

end Entry

end Vpsim.Lib
