/-
Module: FlatLisp.Proofs.Cell.TreeOrder
Purpose: The order of trees is a linear order, in which only equal trees tie. How many pairs of lists
  are open at once while two trees are compared does not depend on which of them comes first.
Main exports: Tree.order, Tree.order_eq_iff, Tree.order_swap, Tree.order_lt_trans, Tree.lockstep,
  Tree.lockstep_comm
-/
import FlatLisp.Cell.Order
import FlatLisp.Proofs.Cell.Tree

namespace FlatLisp

/-! ### Symbols -/

theorem Sigil.code_inj {s s' : Sigil} (h : s.code = s'.code) : s = s' := by
  have hsame := s.ofCode?_code
  rw [h, s'.ofCode?_code] at hsame
  exact (Option.some.inj hsame).symm

instance : Std.TransOrd Sigil := inferInstanceAs (Std.TransCmp (compareOn Sigil.code))

instance : Std.LawfulEqOrd Sigil where
  compare_self := Nat.compare_eq_eq.2 rfl
  eq_of_compare h := Sigil.code_inj (Nat.compare_eq_eq.1 h)

/-- Byte strings are compared as lists of bytes are. -/
theorem compareBytes_eq : Cell.compareBytes = List.compareLex compare := by
  funext bytes bytes'
  induction bytes generalizing bytes' with
  | nil => cases bytes' <;> rfl
  | cons b bytes ih =>
      cases bytes' with
      | nil => rfl
      | cons c bytes' =>
          change (compare b c).then (Cell.compareBytes bytes bytes') = _
          rw [List.compareLex, ih]
          cases compare b c <;> rfl

instance : Std.TransCmp Cell.compareBytes := compareBytes_eq ▸ inferInstance

instance : Std.LawfulEqCmp Cell.compareBytes := compareBytes_eq ▸ inferInstance

/-- In a lexicographic order the second key matters only where the first ties. -/
theorem then_lt_trans {α : Type} {cmp : α → α → Ordering} [Std.TransCmp cmp] [Std.LawfulEqCmp cmp]
    {a b c : α} {x y z : Ordering} (hrest : x = .lt → y = .lt → z = .lt)
    (h₁ : (cmp a b).then x = .lt) (h₂ : (cmp b c).then y = .lt) : (cmp a c).then z = .lt := by
  rw [Ordering.then_eq_lt] at h₁ h₂ ⊢
  rcases h₁ with h₁ | ⟨h₁, hx⟩
  · rcases h₂ with h₂ | ⟨h₂, -⟩
    · exact .inl (Std.TransCmp.lt_trans h₁ h₂)
    · exact .inl (Std.LawfulEqCmp.eq_of_compare h₂ ▸ h₁)
  · have hsame := Std.LawfulEqCmp.eq_of_compare h₁
    subst hsame
    rcases h₂ with h₂ | ⟨h₂, hy⟩
    · exact .inl h₂
    · exact .inr ⟨h₂, hrest hx hy⟩

namespace Tree

/-! ### The order -/

mutual

/-- The order of trees: symbols, then integers, then lists. -/
def order : Tree → Tree → Ordering
  | .symbol sigil quoted chars, .symbol sigil' quoted' chars' =>
      (Cell.compareBytes chars chars').then
        ((compare sigil sigil').then (compare quoted.toNat quoted'.toNat))
  | .integer value, .integer value' => compare value value'
  | .list sigil children, .list sigil' children' =>
      (compare sigil sigil').then (orderAll children children')
  | t, u => compare t.header.tag u.header.tag

/-- The order of lists of trees, child by child; the shorter one comes first. -/
def orderAll : List Tree → List Tree → Ordering
  | [], [] => .eq
  | [], _ :: _ => .lt
  | _ :: _, [] => .gt
  | t :: ts, u :: us => (order t u).then (orderAll ts us)

end

theorem orderAll_eq_iff {ts us : List Tree} (h : ∀ t ∈ ts, ∀ u, t.order u = .eq ↔ t = u) :
    orderAll ts us = .eq ↔ ts = us := by
  induction ts generalizing us with
  | nil => cases us <;> simp [orderAll]
  | cons t ts ih =>
      cases us with
      | nil => simp [orderAll]
      | cons u us =>
          rw [orderAll, Ordering.then_eq_eq, h t (.head _), ih fun t ht => h t (.tail _ ht),
            List.cons.injEq]

/-- Trees tie only with themselves. -/
theorem order_eq_iff {t u : Tree} : t.order u = .eq ↔ t = u := by
  induction t using Tree.induct generalizing u with
  | symbol sigil quoted chars =>
      cases u with
      | symbol sigil' quoted' chars' =>
          have hquoted : compare quoted.toNat quoted'.toNat = .eq ↔ quoted = quoted' := by
            rw [Nat.compare_eq_eq]
            cases quoted <;> cases quoted' <;> simp
          rw [order, Ordering.then_eq_eq, Ordering.then_eq_eq, hquoted, Std.compare_eq_iff_eq,
            Std.LawfulEqCmp.compare_eq_iff_eq, symbol.injEq]
          exact ⟨fun ⟨hchars, hsigil, hquoted⟩ => ⟨hsigil, hquoted, hchars⟩,
            fun ⟨hsigil, hquoted, hchars⟩ => ⟨hchars, hsigil, hquoted⟩⟩
      | integer | list => exact iff_of_false (show Ordering.lt ≠ .eq by decide) (by simp)
  | integer value =>
      cases u with
      | integer value' => rw [order, Std.compare_eq_iff_eq, integer.injEq]
      | symbol => exact iff_of_false (show Ordering.gt ≠ .eq by decide) (by simp)
      | list => exact iff_of_false (show Ordering.lt ≠ .eq by decide) (by simp)
  | list sigil children ih =>
      cases u with
      | list sigil' children' =>
          rw [order, Ordering.then_eq_eq, Std.compare_eq_iff_eq, list.injEq,
            orderAll_eq_iff fun t ht u => ih t ht]
      | symbol | integer => exact iff_of_false (show Ordering.gt ≠ .eq by decide) (by simp)

@[simp] theorem order_self (t : Tree) : t.order t = .eq := order_eq_iff.2 rfl

theorem orderAll_swap {ts us : List Tree} (h : ∀ t ∈ ts, ∀ u, u.order t = (t.order u).swap) :
    orderAll us ts = (orderAll ts us).swap := by
  induction ts generalizing us with
  | nil => cases us <;> rfl
  | cons t ts ih =>
      cases us with
      | nil => rfl
      | cons u us =>
          rw [orderAll, orderAll, h t (.head _), ih fun t ht => h t (.tail _ ht),
            Ordering.swap_then]

/-- The order the other way round. -/
theorem order_swap (t u : Tree) : u.order t = (t.order u).swap := by
  induction t using Tree.induct generalizing u with
  | symbol sigil quoted chars =>
      cases u with
      | symbol sigil' quoted' chars' =>
          have hchars : Cell.compareBytes chars' chars = (Cell.compareBytes chars chars').swap :=
            Std.OrientedCmp.eq_swap
          have hsigil : compare sigil' sigil = (compare sigil sigil').swap := Std.OrientedCmp.eq_swap
          rw [order, order, Ordering.swap_then, Ordering.swap_then, Nat.compare_swap, hchars, hsigil]
      | integer | list => rfl
  | integer value =>
      cases u with
      | integer value' =>
          have hvalue : compare value' value = (compare value value').swap := Std.OrientedCmp.eq_swap
          rw [order, order, hvalue]
      | symbol | list => rfl
  | list sigil children ih =>
      cases u with
      | list sigil' children' =>
          have hsigil : compare sigil' sigil = (compare sigil sigil').swap := Std.OrientedCmp.eq_swap
          rw [order, order, Ordering.swap_then, hsigil, orderAll_swap ih]
      | symbol | integer => rfl

theorem orderAll_lt_trans {ts us vs : List Tree}
    (h : ∀ t ∈ ts, ∀ u v, t.order u = .lt → u.order v = .lt → t.order v = .lt)
    (h₁ : orderAll ts us = .lt) (h₂ : orderAll us vs = .lt) : orderAll ts vs = .lt := by
  induction ts generalizing us vs with
  | nil =>
      cases vs with
      | nil => cases us <;> contradiction
      | cons => rfl
  | cons t ts ih =>
      cases us with
      | nil => contradiction
      | cons u us =>
          cases vs with
          | nil => contradiction
          | cons v vs =>
              rw [orderAll, Ordering.then_eq_lt] at h₁ h₂ ⊢
              rcases h₁ with h₁ | ⟨h₁, hts⟩
              · rcases h₂ with h₂ | ⟨h₂, -⟩
                · exact .inl (h t (.head _) u v h₁ h₂)
                · exact .inl (order_eq_iff.1 h₂ ▸ h₁)
              · rw [order_eq_iff.1 h₁]
                rcases h₂ with h₂ | ⟨h₂, hus⟩
                · exact .inl h₂
                · exact .inr ⟨h₂, ih (fun t ht => h t (.tail _ ht)) hts hus⟩

theorem order_lt_trans {t u v : Tree} (h₁ : t.order u = .lt) (h₂ : u.order v = .lt) :
    t.order v = .lt := by
  induction t using Tree.induct generalizing u v with
  | symbol sigil quoted chars =>
      cases v with
      | symbol sigil'' quoted'' chars'' =>
          cases u with
          | symbol sigil' quoted' chars' =>
              rw [order] at h₁ h₂ ⊢
              exact then_lt_trans (then_lt_trans Std.TransCmp.lt_trans) h₁ h₂
          | integer | list => contradiction
      | integer | list => rfl
  | integer value =>
      cases v with
      | integer value'' =>
          cases u with
          | integer value' =>
              rw [order] at h₁ h₂ ⊢
              exact Std.TransCmp.lt_trans h₁ h₂
          | symbol | list => contradiction
      | symbol => cases u <;> contradiction
      | list => rfl
  | list sigil children ih =>
      cases u with
      | list sigil' children' =>
          cases v with
          | list sigil'' children'' =>
              rw [order] at h₁ h₂ ⊢
              exact then_lt_trans (orderAll_lt_trans fun t ht u v => ih t ht) h₁ h₂
          | symbol | integer => contradiction
      | symbol | integer => contradiction

instance : Std.OrientedCmp order where
  eq_swap {t u} := order_swap u t

instance : Std.TransCmp order where
  isLE_trans {t u v} h₁ h₂ := by
    rw [Ordering.isLE_iff_eq_lt_or_eq_eq] at h₁ h₂ ⊢
    rcases h₁ with h₁ | h₁
    · rcases h₂ with h₂ | h₂
      · exact .inl (order_lt_trans h₁ h₂)
      · exact .inl (order_eq_iff.1 h₂ ▸ h₁)
    · exact order_eq_iff.1 h₁ ▸ h₂

instance : Std.LawfulEqCmp order where
  compare_self := order_self _
  eq_of_compare := order_eq_iff.1

/-- Of three trees in order, the outer two compare as the first pair that does not tie. -/
theorem order_then {t u v : Tree} (h₁ : (t.order u).isLE) (h₂ : (u.order v).isLE) :
    t.order v = (t.order u).then (u.order v) := by
  rw [Ordering.isLE_iff_eq_lt_or_eq_eq] at h₁ h₂
  rcases h₁ with h₁ | h₁
  · have hlt : t.order v = .lt := by
      rcases h₂ with h₂ | h₂
      · exact order_lt_trans h₁ h₂
      · exact order_eq_iff.1 h₂ ▸ h₁
    rw [hlt, h₁]
    rfl
  · rw [h₁, order_eq_iff.1 h₁]
    rfl

/-! ### Lists that are open together -/

mutual

/-- The number of pairs of lists that are open at once, at most, while two trees are compared. -/
def lockstep : Tree → Tree → Nat
  | .list sigil children, .list sigil' children' =>
      if sigil = sigil' ∧ children ≠ [] ∧ children' ≠ [] then lockstepAll children children' + 1
      else 0
  | _, _ => 0

/-- As `lockstep`, for children, up to the first pair that decides. -/
def lockstepAll : List Tree → List Tree → Nat
  | t :: ts, u :: us =>
      if t.order u = .eq then max (lockstep t u) (lockstepAll ts us) else lockstep t u
  | _, _ => 0

end

@[simp] theorem lockstepAll_nil_left (us : List Tree) : lockstepAll [] us = 0 := by
  cases us <;> rfl

@[simp] theorem lockstepAll_nil_right (ts : List Tree) : lockstepAll ts [] = 0 := by
  cases ts <;> rfl

theorem lockstepAll_comm {ts us : List Tree} (h : ∀ t ∈ ts, ∀ u, lockstep t u = lockstep u t) :
    lockstepAll ts us = lockstepAll us ts := by
  induction ts generalizing us with
  | nil => simp
  | cons t ts ih =>
      cases us with
      | nil => simp
      | cons u us =>
          have heq : t.order u = .eq ↔ u.order t = .eq := by rw [order_eq_iff, order_eq_iff, eq_comm]
          rw [lockstepAll, lockstepAll, h t (.head _), ih fun t ht => h t (.tail _ ht)]
          simp only [heq]

/-- Comparing takes the same memory both ways. -/
theorem lockstep_comm (t u : Tree) : lockstep t u = lockstep u t := by
  induction t using Tree.induct generalizing u with
  | symbol | integer => cases u <;> rfl
  | list sigil children ih =>
      cases u with
      | symbol | integer => rfl
      | list sigil' children' =>
          have hboth : (sigil = sigil' ∧ children ≠ [] ∧ children' ≠ []) ↔
              (sigil' = sigil ∧ children' ≠ [] ∧ children ≠ []) := by
            rw [eq_comm, and_comm (a := children ≠ [])]
          rw [lockstep, lockstep, lockstepAll_comm ih]
          simp only [hboth]

theorem lockstepAll_le {ts us : List Tree} (h : ∀ t ∈ ts, ∀ u, lockstep t u ≤ t.nesting) :
    lockstepAll ts us ≤ nestingAll ts := by
  induction ts generalizing us with
  | nil => exact Nat.zero_le _
  | cons t ts ih =>
      cases us with
      | nil => exact Nat.zero_le _
      | cons u us =>
          have hhead := h t (.head _) u
          have hrest := @ih us fun t ht => h t (.tail _ ht)
          rw [lockstepAll, nestingAll]
          split <;> omega

/-- Only lists of both trees are opened. -/
theorem lockstep_le (t u : Tree) : lockstep t u ≤ t.nesting := by
  induction t using Tree.induct generalizing u with
  | symbol | integer => cases u <;> exact Nat.zero_le _
  | list sigil children ih =>
      cases u with
      | symbol | integer => exact Nat.zero_le _
      | list sigil' children' =>
          rw [lockstep]
          split
          · rename_i hboth
            rw [nesting, if_neg hboth.2.1]
            exact Nat.succ_le_succ (lockstepAll_le ih)
          · exact Nat.zero_le _

end Tree

end FlatLisp
