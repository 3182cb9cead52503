/-
Module: FlatLisp.Proofs.Cell.CellTree
Purpose: Trees of cells, down to what each header says and which cells hold an address in the place of
  their body. They are written in pre-order, every cell after the one before it; what is written can be
  told apart, whatever comes after it.
Main exports: CellTree, CellTree.induct, CellTree.encode, CellTree.Fits, CellTree.visits,
  CellTree.eq_of_prefix, Tree.cells, Tree.encode_inj
-/
import FlatLisp.Cell.Walk
import FlatLisp.Proofs.Cell.Depiction

namespace FlatLisp

/-- The children of the cell follow it. -/
def Header.opens : Header → Bool
  | .list _ _ false => true
  | _ => false

/-- A tree of cells. What follows the header of a leaf are the characters of a symbol, or the address
of a linked body. -/
inductive CellTree where
  | leaf (header : Header) (body : List UInt8)
  | list (sigil : Sigil) (children : List CellTree)
deriving Repr, Inhabited

namespace CellTree

/-- What holds of the leaves, and of a list whenever it holds of its children, holds of all trees. -/
@[elab_as_elim]
theorem induct {P : CellTree → Prop} (leaf : ∀ header body, P (.leaf header body))
    (list : ∀ sigil children, (∀ t ∈ children, P t) → P (.list sigil children)) : ∀ t, P t
  | .leaf header body => leaf header body
  | .list sigil children => list sigil children fun t _ => induct leaf list t

/-- The header of the root. -/
def header : CellTree → Header
  | .leaf header _ => header
  | .list sigil children => .list children.length sigil false

mutual

/-- The bytes of a tree in pre-order. -/
def encode : CellTree → List UInt8
  | .leaf header body => header.encode ++ body
  | .list sigil children => (Header.list children.length sigil false).encode ++ encodeAll children

/-- The bytes of trees one after another. -/
def encodeAll : List CellTree → List UInt8
  | [] => []
  | t :: rest => t.encode ++ encodeAll rest

end

mutual

/-- Every number is within the width of its field, and every leaf is as long as its header says. -/
def Fits : CellTree → Prop
  | .leaf header body =>
      header.Fits ∧ header.opens = false ∧ header.length + body.length = header.footprint
  | .list _ children => children.length ≤ Header.maxCount ∧ FitAll children

def FitAll : List CellTree → Prop
  | [] => True
  | t :: rest => t.Fits ∧ FitAll rest

end

mutual

/-- How many lists with children are open at once in the tree. -/
def nesting : CellTree → Nat
  | .leaf .. => 0
  | .list _ children => if children = [] then 0 else nestingAll children + 1

def nestingAll : List CellTree → Nat
  | [] => 0
  | t :: rest => max t.nesting (nestingAll rest)

end

mutual

/-- The number of cells. -/
def size : CellTree → Nat
  | .leaf .. => 1
  | .list _ children => sizeAll children + 1

def sizeAll : List CellTree → Nat
  | [] => 0
  | t :: rest => t.size + sizeAll rest

end

mutual

/-- The cells of the tree that is written at `p` with `depth` lists open around it, in pre-order. -/
def visits : CellTree → (p : Place) → (depth : Nat) → List Visit
  | .leaf header _, p, depth => [⟨p, header, depth⟩]
  | .list sigil children, p, depth =>
      ⟨p, .list children.length sigil false, depth⟩ ::
        visitsAll children (p.after Header.listLength) (depth + 1)

def visitsAll : List CellTree → (p : Place) → (depth : Nat) → List Visit
  | [], _, _ => []
  | t :: rest, p, depth => t.visits p depth ++ visitsAll rest (p.after t.encode.length) depth

end

theorem fitAll_iff {ts : List CellTree} : FitAll ts ↔ ∀ t ∈ ts, t.Fits := by
  induction ts with
  | nil => simp [FitAll]
  | cons t rest ih => simp [FitAll, ih]

theorem nesting_le_nestingAll {t : CellTree} {ts : List CellTree} (h : t ∈ ts) :
    t.nesting ≤ nestingAll ts := by
  induction ts with
  | nil => contradiction
  | cons u rest ih =>
      rw [nestingAll]
      rcases List.mem_cons.1 h with rfl | h
      · exact Nat.le_max_left ..
      · exact Nat.le_trans (ih h) (Nat.le_max_right ..)

theorem Fits.header {t : CellTree} (h : t.Fits) : t.header.Fits := by
  cases t with
  | leaf header body => exact h.1
  | list sigil children => exact h.1

/-- The header of a tree begins its bytes. -/
theorem header_prefix (t : CellTree) : ∃ body, t.encode = t.header.encode ++ body := by
  cases t with
  | leaf header body => exact ⟨body, by rw [encode, CellTree.header]⟩
  | list sigil children => exact ⟨encodeAll children, by rw [encode, CellTree.header]⟩

/-- As many visits are made as there are cells. -/
theorem length_visits (t : CellTree) (p : Place) (depth : Nat) :
    (t.visits p depth).length = t.size := by
  induction t using CellTree.induct generalizing p depth with
  | leaf header body => rfl
  | list sigil children ih =>
      have hall : ∀ (p : Place) (depth : Nat), (visitsAll children p depth).length = sizeAll children := by
        induction children with
        | nil => exact fun _ _ => rfl
        | cons t rest ihrest =>
            intro p depth
            rw [visitsAll, sizeAll, List.length_append, ih t (.head _),
              ihrest fun u hu => ih u (.tail _ hu)]
      rw [visits, size, List.length_cons, hall]

/-! ### Telling trees apart -/

theorem header_inj {t u : CellTree} {rest rest' : List UInt8} (ht : t.Fits) (hu : u.Fits)
    (heq : t.encode ++ rest = u.encode ++ rest') : t.header = u.header := by
  obtain ⟨body, hbody⟩ := t.header_prefix
  obtain ⟨body', hbody'⟩ := u.header_prefix
  rw [hbody, hbody', List.append_assoc, List.append_assoc] at heq
  exact (Header.encode_inj ht.header hu.header heq).1

theorem encodeAll_append_inj {ts us : List CellTree} {rest rest' : List UInt8}
    (h : ∀ t ∈ ts, ∀ {u : CellTree} {rest rest' : List UInt8}, t.Fits → u.Fits →
      t.encode ++ rest = u.encode ++ rest' → t = u ∧ rest = rest')
    (hts : FitAll ts) (hus : FitAll us) (hlength : ts.length = us.length)
    (heq : encodeAll ts ++ rest = encodeAll us ++ rest') : ts = us ∧ rest = rest' := by
  induction ts generalizing us with
  | nil =>
      cases us with
      | nil => exact ⟨rfl, heq⟩
      | cons => contradiction
  | cons t ts ih =>
      cases us with
      | nil => contradiction
      | cons u us =>
          rw [encodeAll, encodeAll, List.append_assoc, List.append_assoc] at heq
          obtain ⟨rfl, hafter⟩ := h t (.head _) hts.1 hus.1 heq
          obtain ⟨rfl, hrest⟩ := ih (fun t ht => h t (.tail _ ht)) hts.2 hus.2
            (Nat.succ.inj hlength) hafter
          exact ⟨rfl, hrest⟩

/-- Written trees can be told apart, whatever comes after them. The header says how long a leaf is and
how many children a list has; those are told apart one by one. -/
theorem encode_append_inj {t u : CellTree} {rest rest' : List UInt8} (ht : t.Fits) (hu : u.Fits)
    (heq : t.encode ++ rest = u.encode ++ rest') : t = u ∧ rest = rest' := by
  induction t using CellTree.induct generalizing u rest rest' with
  | leaf header body =>
      have hheader := header_inj ht hu heq
      cases u with
      | leaf header' body' =>
          obtain rfl : header = header' := hheader
          obtain ⟨hfits, -, hlength⟩ := ht
          obtain ⟨-, -, hlength'⟩ := hu
          rw [encode, encode, List.append_assoc, List.append_assoc] at heq
          have hbody := List.append_cancel_left heq
          obtain ⟨rfl, hrest⟩ := List.append_inj hbody (by omega)
          exact ⟨rfl, hrest⟩
      | list sigil' children' =>
          have hopens := ht.2.1
          rw [show header = .list children'.length sigil' false from hheader] at hopens
          contradiction
  | list sigil children ih =>
      have hheader := header_inj ht hu heq
      cases u with
      | leaf header' body' =>
          have hopens := hu.2.1
          rw [← show .list children.length sigil false = header' from hheader] at hopens
          contradiction
      | list sigil' children' =>
          injection hheader with hlength hsigil
          subst hsigil
          rw [encode, encode, hlength, List.append_assoc, List.append_assoc] at heq
          obtain ⟨rfl, hrest⟩ := encodeAll_append_inj
            (fun t ht u rest rest' hfits hfits' heq => ih t ht hfits hfits' heq)
            ht.2 hu.2 hlength (List.append_cancel_left heq)
          exact ⟨rfl, hrest⟩

/-- The bytes of one tree do not begin with the bytes of another. -/
theorem eq_of_prefix {t u : CellTree} (ht : t.Fits) (hu : u.Fits) (h : u.encode <+: t.encode) :
    u = t := by
  obtain ⟨rest, hrest⟩ := h
  have heq : u.encode ++ rest = t.encode ++ [] := by rw [hrest, List.append_nil]
  exact (encode_append_inj hu ht heq).1

end CellTree

/-! ### Values -/

namespace Tree

/-- The cells of a value with every body inline. -/
def cells : Tree → CellTree
  | .symbol sigil quoted chars =>
      .leaf (.symbol chars.length sigil quoted false (Hash.key8 chars)) chars
  | .integer value => .leaf (.integer value) []
  | .list sigil children => .list sigil (children.map cells)

theorem encode_cells (t : Tree) : t.cells.encode = t.encode := by
  induction t using Tree.induct with
  | symbol sigil quoted chars => simp only [cells, CellTree.encode, encode]
  | integer value => simp only [cells, CellTree.encode, encode, List.append_nil]
  | list sigil children ih =>
      have hall : CellTree.encodeAll (children.map cells) = encodeAll children := by
        induction children with
        | nil => rfl
        | cons t rest ihrest =>
            rw [List.map_cons, CellTree.encodeAll, encodeAll, ih t (.head _),
              ihrest fun u hu => ih u (.tail _ hu)]
      rw [cells, CellTree.encode, encode, hall, List.length_map]

theorem Fits.cells {t : Tree} (h : t.Fits) : t.cells.Fits := by
  induction t using Tree.induct with
  | symbol sigil quoted chars => rw [Tree.cells]; exact ⟨h, rfl, rfl⟩
  | integer value => rw [Tree.cells]; exact ⟨h, rfl, rfl⟩
  | list sigil children ih =>
      rw [Tree.cells]
      refine ⟨?_, CellTree.fitAll_iff.2 fun u hu => ?_⟩
      · rw [List.length_map]
        exact h.1
      obtain ⟨t, ht, rfl⟩ := List.mem_map.1 hu
      exact ih t ht (fitAll_iff.1 h.2 t ht)

theorem nesting_cells (t : Tree) : t.cells.nesting = t.nesting := by
  induction t using Tree.induct with
  | symbol sigil quoted chars => rw [cells, CellTree.nesting, nesting]
  | integer value => rw [cells, CellTree.nesting, nesting]
  | list sigil children ih =>
      have hall : CellTree.nestingAll (children.map cells) = nestingAll children := by
        induction children with
        | nil => rfl
        | cons t rest ihrest =>
            rw [List.map_cons, CellTree.nestingAll, nestingAll, ih t (.head _),
              ihrest fun u hu => ih u (.tail _ hu)]
      rw [cells, CellTree.nesting, nesting, hall]
      simp only [List.map_eq_nil_iff]

theorem map_cells_inj {ts us : List Tree} (hts : ∀ t ∈ ts, ∀ u : Tree, t.cells = u.cells → t = u)
    (h : ts.map cells = us.map cells) : ts = us := by
  induction ts generalizing us with
  | nil => exact (List.map_eq_nil_iff.1 h.symm).symm
  | cons t ts ih =>
      cases us with
      | nil => contradiction
      | cons u us =>
          rw [List.map_cons, List.map_cons] at h
          obtain ⟨htu, hrest⟩ := List.cons.inj h
          rw [hts t (.head _) u htu, ih (fun t ht => hts t (.tail _ ht)) hrest]

/-- The cells tell the value. -/
theorem cells_inj {t u : Tree} (h : t.cells = u.cells) : t = u := by
  induction t using Tree.induct generalizing u with
  | symbol sigil quoted chars =>
      cases u with
      | symbol sigil' quoted' chars' =>
          rw [cells, cells, CellTree.leaf.injEq, Header.symbol.injEq] at h
          obtain ⟨⟨-, rfl, rfl, -⟩, rfl⟩ := h
          rfl
      | integer | list => simp [cells] at h
  | integer value =>
      cases u with
      | integer value' =>
          rw [cells, cells, CellTree.leaf.injEq, Header.integer.injEq] at h
          rw [h.1]
      | symbol | list => simp [cells] at h
  | list sigil children ih =>
      cases u with
      | list sigil' children' =>
          rw [cells, cells, CellTree.list.injEq] at h
          rw [h.1, map_cells_inj (fun t ht u => ih t ht) h.2]
      | symbol | integer => simp [cells] at h

/-- There is one way only to encode a value. -/
theorem encode_inj {t u : Tree} (ht : t.Fits) (hu : u.Fits) : t.encode = u.encode ↔ t = u := by
  refine ⟨fun heq => cells_inj ?_, fun heq => heq ▸ rfl⟩
  rw [← t.encode_cells, ← u.encode_cells] at heq
  exact CellTree.eq_of_prefix hu.cells ht.cells (heq ▸ List.prefix_rfl)

end Tree

end FlatLisp
