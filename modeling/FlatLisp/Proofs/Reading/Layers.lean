/-
Module: FlatLisp.Proofs.Reading.Layers
Purpose: What a suspended reader has left in the arena. Following the links inwards from its root leads
  from one unfinished value to the next, each in a frame under a mark of its own, and the cells of all
  of them follow one another. So nothing that a later call finds there can be out of order.
Main exports: Reading.OpenValue, Reading.Layer, Reading.Linked, Reading.Stacked,
  Reading.read_stacked
-/
import FlatLisp.Proofs.Reading.Shortage
import FlatLisp.Proofs.Reading.Undisturbed
import FlatLisp.Proofs.Reading.View

namespace FlatLisp

namespace Reading

open Limits (frameCost)

/-! ### Layers -/

/-- A value some of which has been read. -/
inductive OpenValue where
  | list (o : OpenList)
  | leaf (x : Leaf)
deriving Inhabited

namespace OpenValue

/-- The header of the value: that of a list counts the children that are complete. -/
def header : OpenValue → Header
  | list o => o.header
  | leaf x => x.header

/-- The bytes of the value, as far as it has been read. -/
def encode : OpenValue → List UInt8
  | list o => o.encode
  | leaf x => x.encode

def view : OpenValue → OpenContext
  | list o => .list o.sigil
  | leaf x => x.view

end OpenValue

/-- A frame, where it is, and the value that it stands for. -/
structure Layer where
  offset : Nat
  frame : Frame
  value : OpenValue
deriving Inhabited

/-- The frame is in the backward region, right under the record of its own mark. A rewind of the mark
takes both away, and `before` is the mark that is the most recent one then. The frame leads to the
header of the value. -/
structure Layer.Framed (a : Arena) (before : Nat) (x : Layer) : Prop where
  backward : a.backward ≤ x.offset
  capacity : x.offset + frameCost ≤ a.capacity
  frame : Frame.load a x.offset = .ok x.frame
  mark : x.frame.mark = x.offset + Frame.length
  record : a.readRecord x.frame.mark = .ok (x.frame.mark + Arena.markLength, before)
  view : x.frame.view = x.value.view
  header : Cell.load a .unmapped ⟨.arena, x.frame.cell⟩ = .ok x.value.header

/-- Following the links inwards from `entry` leads to these layers, the outermost first, each under the
one around it. The frame around all of them is `around`, `before` is the mark before theirs, and their
cells follow one another from `cell`. -/
inductive Linked (a : Arena) : (before around entry cell : Nat) → List Layer → Prop where
  | nil {before around cell : Nat} (hlast : a.backwardMark = before) :
      Linked a before around 0 cell []
  | cons {before around cell : Nat} {x : Layer} {inner : List Layer} (hframed : x.Framed a before)
      (hparent : x.frame.parent = around) (hcell : x.frame.cell = cell)
      (hdown : x.frame.child < x.offset)
      (hinner : Linked a x.frame.mark x.offset x.frame.child (cell + x.value.encode.length) inner) :
      Linked a before around x.offset cell (x :: inner)

/-- The bytes of all that is unfinished, the outermost first. -/
def encodeLayers (layers : List Layer) : List UInt8 := layers.flatMap fun x => x.value.encode

/-- A reader that waits for more has these layers in the arena, the outermost first, and its root cell
is at `start`. -/
structure Stacked (s : Reading) (start : Nat) (layers : List Layer) : Prop where
  linked : ∃ before, Linked s.arena before 0 s.reader.root start layers
  lists : ∀ x ∈ layers.dropLast, x.frame.kind = .list
  locked : s.arena.isLocked = true ↔ ∃ x, layers.getLast? = some x ∧ x.frame.kind = .symbol
  lock : s.arena.hold.map (Lock.mk ·.id) = s.reader.lock
  bytes : s.arena.bytes start (encodeLayers layers).length = .ok (encodeLayers layers)
  forward : s.arena.isLocked = false → s.arena.forward = start + (encodeLayers layers).length
  pushback : s.reader.pushback.length ≤ 3
  openContext : ∀ outward, s.reader.openContext s.arena outward =
    .ok (layers.reverse.map (·.frame.view))[outward]?
  digits : ∀ outward negative,
    s.reader.openContext s.arena outward ≠ .ok (some (.integer negative false))

/-! ### The layers of a read in terms of trees -/

open Layout

section Layers

variable (b : Arena)

/-- The layer of an open list with the lists `outer` around it. -/
def listLayer (child : Nat) (o : OpenList) (outer : List OpenList) : Layer where
  offset := slot b (outer.length + 1)
  frame := frameOf b (listContext b.forward o outer) outer.length child
  value := .list o

/-- The layers of open lists, the innermost of which is linked to `child`. -/
def listLayers : (child : Nat) → List OpenList → List Layer
  | _, [] => []
  | child, o :: outer => listLayers (slot b (outer.length + 1)) outer ++ [listLayer b child o outer]

/-- The layer of a leaf with the lists `lists` around it. -/
def leafLayer (x : Leaf) (lists : List OpenList) : Layer where
  offset := slot b (lists.length + 1)
  frame := frameOf b (leafContext b.forward lists x) lists.length 0
  value := .leaf x

/-- The layers of a read in progress. -/
def layersOf (p : Parse) : List Layer :=
  match p.leaf with
  | none => listLayers b 0 p.lists
  | some x => listLayers b (slot b (p.lists.length + 1)) p.lists ++ [leafLayer b x p.lists]

end Layers

variable {l : Limits} {b a : Arena} {p : Parse} {s t : Reading} {top child : Nat} {x : Leaf}
  {bytes : List UInt8} {ctxs outer : List Context} {c : Context} {lists : List OpenList}

theorem encodeLayers_append (outer inner : List Layer) :
    encodeLayers (outer ++ inner) = encodeLayers outer ++ encodeLayers inner :=
  List.flatMap_append

theorem encodeLayers_singleton (y : Layer) : encodeLayers [y] = y.value.encode :=
  List.flatMap_singleton ..

theorem encode_listLayers (b : Arena) (child : Nat) (lists : List OpenList) :
    encodeLayers (listLayers b child lists) = OpenList.encodeAll lists := by
  induction lists generalizing child with
  | nil => rfl
  | cons o outer ih =>
      rw [listLayers, encodeLayers_append, encodeLayers_singleton, ih]
      rfl

theorem encode_layersOf (b : Arena) (p : Parse) : encodeLayers (layersOf b p) = p.encode := by
  unfold layersOf Parse.encode
  cases p.leaf with
  | none => rw [encode_listLayers, Parse.leafBytes, List.append_nil]
  | some x =>
      rw [encodeLayers_append, encodeLayers_singleton, encode_listLayers]
      rfl

theorem kind_listLayers (b : Arena) (child : Nat) (lists : List OpenList) :
    ∀ y ∈ listLayers b child lists, y.frame.kind = .list := by
  induction lists generalizing child with
  | nil => exact List.forall_mem_nil _
  | cons o outer ih =>
      intro y hy
      rcases List.mem_append.1 hy with hy | hy
      · exact ih _ y hy
      · rw [List.mem_singleton.1 hy]
        rfl

theorem view_listLayers (b : Arena) (child : Nat) (lists : List OpenList) :
    (listLayers b child lists).reverse.map (·.frame.view) = lists.map fun o => .list o.sigil := by
  induction lists generalizing child with
  | nil => rfl
  | cons o outer ih =>
      rw [listLayers, List.reverse_append, List.map_append, ih]
      exact congrArg (· :: _) (view_listContext b.forward o outer)

/-- The frames show the unfinished values, the innermost first. -/
theorem view_layersOf (b : Arena) (p : Parse) :
    (layersOf b p).reverse.map (·.frame.view) = p.openContexts := by
  unfold layersOf Parse.openContexts
  cases p.leaf with
  | none => exact view_listLayers b 0 p.lists
  | some x =>
      dsimp only
      rw [List.reverse_append, List.map_append, view_listLayers]
      exact congrArg (· :: _) (view_leafContext b.forward p.lists x)

/-! ### The links between the layers -/

theorem slot_lt (hb : b.Bounded) (n : Nat) : slot b n < 65536 := by
  have hcapacity := hb.capacity
  have hbackward := hb.backward
  simp only [Arena.maxCapacity] at hcapacity
  rw [slot]
  omega

/-- Each frame is under the one around it. -/
theorem slot_succ_add (h : Laid b bytes top ctxs a) {n : Nat} (hn : n < ctxs.length) :
    slot b (n + 1) + frameCost = slot b n := by
  apply slot_add
  exact Nat.le_trans (Nat.mul_le_mul_left _ hn) h.room

/-- A frame of what is laid out is right under the record of its mark. -/
theorem framed_of_laid (hb : b.Bounded) (h : Laid b bytes top ctxs a)
    (hframes : FramesAt b a.memory child (c :: outer)) (hlength : outer.length < ctxs.length)
    (hcell : c.cell < 65536) (hchild : child < 65536) (value : OpenValue)
    (hview : c.view = value.view)
    (hheader : Cell.load a .unmapped ⟨.arena, c.cell⟩ = .ok value.header) :
    Layer.Framed a (markOf b outer.length)
      ⟨slot b (outer.length + 1), frameOf b c outer.length child, value⟩ := by
  have hslot := slot_succ_add h hlength
  have hlow : a.backward ≤ slot b (outer.length + 1) := by
    rw [h.backward]
    exact Nat.sub_le_sub_left (Nat.mul_le_mul_left _ hlength) _
  have hhigh : slot b outer.length ≤ a.capacity := by
    have hsize : a.capacity = b.capacity := h.size
    rw [hsize]
    exact Nat.le_trans (Nat.sub_le ..) hb.backward
  have hmark : markOf b (outer.length + 1) = slot b (outer.length + 1) + Frame.length := by
    simp only [frameCost_eq, markOf, Arena.markLength, Frame.length] at hslot ⊢
    omega
  have hafter : markOf b (outer.length + 1) + Arena.markLength = slot b outer.length := by
    rw [hmark, ← hslot]
    rfl
  have hlive : a.Live (markOf b (outer.length + 1)) Arena.markLength := by
    apply Arena.live_of_above
    · omega
    · omega
  have hheld : a.memory.Holds (markOf b (outer.length + 1)) (recordOf b outer.length) := by
    rw [hmark]
    exact hframes.record
  exact {
    backward := hlow
    capacity := hslot ▸ hhigh
    frame := h.load_around hb hframes hlength hcell hchild
    mark := hmark
    record := by
      rw [mark_frameOf, hafter]
      exact Arena.readRecord_ok hlive hheld (slot_lt hb _) (markOf_lt hb _)
    view := hview
    header := hheader }

/-- The links of open lists lead through them to the layers inside. -/
theorem linked_listLayers (hb : b.Bounded) {rest : List UInt8}
    (h : Laid b (OpenList.encodeAll lists ++ rest) top ctxs a)
    (hframes : FramesAt b a.memory child (listContexts b.forward lists))
    (hlength : lists.length ≤ ctxs.length) (hchild : child < slot b lists.length)
    (hfits : ∀ o ∈ lists, o.Fits) {inner : List Layer}
    (hinner : Linked a (markOf b lists.length) (parentOf b lists.length) child
      (b.forward + (OpenList.encodeAll lists).length) inner) :
    Linked a b.backwardMark 0 (entry b child (listContexts b.forward lists)) b.forward
      (listLayers b child lists ++ inner) := by
  -- From the innermost list outwards: its layer is put before those that are inside of it.
  induction lists generalizing rest child inner with
  | nil => exact hinner
  | cons o outer ih =>
      rw [List.length_cons] at hlength hchild hinner
      rw [encodeAll_cons_append] at h
      have hlt := h.forward_lt hb
      have hheader := h.load_header hb .unmapped (hfits o (List.mem_cons_self ..)).header
      have hslot := slot_succ_add h hlength
      have hn := length_listContexts b.forward outer
      have hcell : (listContext b.forward o outer).cell < 65536 := by
        rw [List.length_append] at hlt
        simp only [listContext]
        omega
      have hframed := framed_of_laid hb h hframes (by omega) hcell
        (Nat.lt_trans hchild (slot_lt hb _)) (.list o) (view_listContext ..) hheader
      have hbytes : b.forward + (OpenList.encodeAll (o :: outer)).length =
          b.forward + (OpenList.encodeAll outer).length + o.encode.length := by
        rw [OpenList.encodeAll, List.length_append, Nat.add_assoc]
      have houter := hframes.2
      rw [hn] at hframed houter
      rw [hbytes] at hinner
      have hdown : slot b (outer.length + 1) < slot b outer.length := by
        simp only [frameCost_eq] at hslot
        omega
      have hlast : Linked a (markOf b outer.length) (parentOf b outer.length)
          (slot b (outer.length + 1)) (b.forward + (OpenList.encodeAll outer).length)
          (listLayer b child o outer :: inner) :=
        Linked.cons (x := listLayer b child o outer) hframed rfl rfl hchild hinner
      rw [listContexts, entry_cons, hn, listLayers, List.append_assoc]
      apply ih h houter (Nat.le_of_succ_le hlength) hdown _ hlast
      intro x hx
      exact hfits x (List.mem_cons_of_mem _ hx)

/-- Inside of all lists is the layer of the leaf. -/
theorem linked_leafLayer (hb : b.Bounded)
    (h : Laid b (OpenList.encodeAll lists ++ x.encode) 0
      (leafContext b.forward lists x :: listContexts b.forward lists) a) (hfits : x.Fits) :
    Linked a (markOf b lists.length) (parentOf b lists.length) (slot b (lists.length + 1))
      (b.forward + (OpenList.encodeAll lists).length) [leafLayer b x lists] := by
  have hn := length_listContexts b.forward lists
  have hpos := h.slot_pos hb
  have hlt := h.forward_lt hb
  have hlast := h.backwardMark
  have hheader := h.load_header hb .unmapped hfits.header
  have hcell : (leafContext b.forward lists x).cell =
      b.forward + (OpenList.encodeAll lists).length := by cases x <;> rfl
  rw [← hcell] at hheader
  have hfit : (leafContext b.forward lists x).cell < 65536 := by
    rw [List.length_append] at hlt
    omega
  have hframed := framed_of_laid hb h h.frames (Nat.lt_succ_self _) hfit (Nat.zero_lt_succ _)
    (.leaf x) (view_leafContext ..) hheader
  rw [hn] at hframed
  rw [List.length_cons, hn] at hpos hlast
  exact Linked.cons (x := leafLayer b x lists) hframed rfl hcell hpos (.nil hlast)

/-- The links of a read in progress lead through all its layers. -/
theorem Tracks.linked (hl : LimitsOf l b) (hvalid : p.Valid l) (h : Tracks l b p s) :
    Linked s.arena b.backwardMark 0 s.reader.root b.forward (layersOf b p) := by
  have hb := hl.bounded
  have hlaid := h.laid
  have hn := length_listContexts b.forward p.lists
  rw [h.root]
  unfold layersOf contexts
  unfold contexts Parse.encode at hlaid
  rw [h.start] at hlaid ⊢
  cases hleaf : p.leaf with
  | none =>
      rw [hleaf] at hlaid
      have hpos := hlaid.slot_pos hb
      have hlast := hlaid.backwardMark
      rw [hn] at hpos hlast
      have hlinked := linked_listLayers hb hlaid hlaid.frames (Nat.le_of_eq hn.symm) hpos
        hvalid.lists (.nil hlast)
      rwa [List.append_nil] at hlinked
  | some x =>
      rw [hleaf] at hlaid
      have hslot := slot_succ_add hlaid (Nat.lt_succ_self _)
      have houter := hlaid.frames.2
      dsimp only
      rw [hn] at hslot houter
      rw [entry_cons, hn]
      have hdown : slot b (p.lists.length + 1) < slot b p.lists.length := by
        simp only [frameCost_eq] at hslot
        omega
      exact linked_listLayers hb hlaid houter (by rw [List.length_cons, hn]; exact Nat.le_succ _)
        hdown hvalid.lists (linked_leafLayer hb hlaid (hvalid.leaf x hleaf))

/-! ### Suspended readers -/

/-- The lock is held while the innermost layer is that of a symbol. -/
theorem Tracks.isLocked_iff (h : Tracks l b p s) :
    s.arena.isLocked = true ↔ ∃ y, (layersOf b p).getLast? = some y ∧ y.frame.kind = .symbol := by
  have hheld := h.held
  unfold Held at hheld
  unfold layersOf
  rw [Arena.isLocked]
  cases hleaf : p.leaf with
  | none =>
      rw [hleaf] at hheld
      rw [hheld.1]
      constructor
      · intro hlocked
        contradiction
      · rintro ⟨y, hlast, hkind⟩
        rw [kind_listLayers b 0 p.lists y (List.mem_of_getLast? hlast)] at hkind
        contradiction
  | some x =>
      rw [hleaf] at hheld
      dsimp only
      rw [List.getLast?_concat]
      cases x with
      | symbol sigil quoted escaped chars =>
          obtain ⟨-, id, hhold, -⟩ := hheld
          rw [hhold]
          exact ⟨fun _ => ⟨_, rfl, rfl⟩, fun _ => rfl⟩
      | integer negative digits magnitude =>
          rw [hheld.1]
          constructor
          · intro hlocked
            contradiction
          · rintro ⟨y, hlast, hkind⟩
            cases hlast
            contradiction

/-- The reader has the lock that is held. -/
theorem Tracks.lock_eq (h : Tracks l b p s) : s.arena.hold.map (Lock.mk ·.id) = s.reader.lock := by
  have hheld := h.held
  unfold Held at hheld
  split at hheld
  · obtain ⟨-, id, hhold, hlock⟩ := hheld
    rw [hhold, hlock]
    rfl
  · rw [hheld.1, hheld.2]
    rfl

/-- Where nothing is set aside for a symbol, nothing is behind the bytes of what is unfinished. -/
theorem Tracks.forward_of_unlocked (h : Tracks l b p s) (hunlocked : s.arena.isLocked = false) :
    s.arena.forward = b.forward + p.encode.length := by
  have hheld := h.held
  have hforward := h.forward
  unfold Held at hheld
  unfold forwardOf Parse.used at hforward
  rw [← h.start]
  cases hleaf : p.leaf with
  | none =>
      rw [hleaf] at hforward
      exact hforward
  | some x =>
      rw [hleaf] at hheld hforward
      cases x with
      | symbol sigil quoted escaped chars =>
          obtain ⟨-, id, hhold, -⟩ := hheld
          rw [Arena.isLocked, hhold] at hunlocked
          contradiction
      | integer negative digits magnitude => exact hforward

/-- The integer that is shown, if any, is the leaf. -/
theorem integer_of_openContexts {outward : Nat} {negative digits : Bool}
    (h : p.openContexts[outward]? = some (.integer negative digits)) :
    ∃ magnitude, p.leaf = some (.integer negative digits magnitude) := by
  have hmem := List.mem_of_getElem? h
  rw [Parse.openContexts, List.mem_append] at hmem
  rcases hmem with hmem | hmem
  · cases hleaf : p.leaf with
    | none => simp [hleaf] at hmem
    | some x =>
        rw [hleaf] at hmem
        cases x with
        | symbol sigil quoted escaped chars => simp [Leaf.view] at hmem
        | integer negative' digits' magnitude =>
            simp only [Leaf.view, Option.map_some, Option.toList_some, List.mem_singleton,
              OpenContext.integer.injEq] at hmem
            obtain ⟨rfl, rfl⟩ := hmem
            exact ⟨magnitude, rfl⟩
  · simp at hmem

/-- A read in progress that has stopped in no integer before its digits is stacked in the arena. -/
theorem Tracks.stacked (hl : LimitsOf l b) (hvalid : p.Valid l) (hdigits : p.HasDigits)
    (h : Tracks l b p s) (hpushback : s.reader.pushback.length ≤ 3) :
    Stacked s b.forward (layersOf b p) where
  linked := ⟨_, h.linked hl hvalid⟩
  lists := by
    unfold layersOf
    intro y hy
    cases hleaf : p.leaf with
    | none =>
        rw [hleaf] at hy
        exact kind_listLayers b _ p.lists y (List.dropLast_subset _ hy)
    | some x =>
        rw [hleaf] at hy
        dsimp only at hy
        rw [List.dropLast_concat] at hy
        exact kind_listLayers b _ p.lists y hy
  locked := h.isLocked_iff
  lock := h.lock_eq
  bytes := by
    rw [encode_layersOf]
    exact Arena.bytes_ok (Laid.live_cells hl.bounded (Nat.le_refl _) h.laid.forward) h.laid.cells
  forward := by
    rw [encode_layersOf]
    exact h.forward_of_unlocked
  pushback := hpushback
  openContext outward := by rw [h.openContext hl hvalid, view_layersOf]
  digits outward negative := by
    intro hopen
    rw [h.openContext hl hvalid] at hopen
    injection hopen with hopen
    obtain ⟨magnitude, hleaf⟩ := integer_of_openContexts hopen
    exact hdigits negative magnitude hleaf

/-- There are two reasons for which a read fails. -/
theorem reason_of_explained {why : ReadError} (h : (Parse.Outcome.failed why).Explained) :
    (∃ rejection, why = .rejected rejection) ∨
      ∃ requested free, why = .fault (.arena (.outOfMemory requested free)) := by
  unfold Parse.Outcome.Explained at h
  split at h
  · rename_i rejection hwhy
    injection hwhy with hwhy
    exact .inl ⟨rejection, hwhy⟩
  · rename_i requested free hwhy
    injection hwhy with hwhy
    exact .inr ⟨requested, free, hwhy⟩
  · exact h.elim
  · rename_i hnot
    exact (hnot why rfl).elim

/-- Whenever a read waits for more, all that is unfinished is in the arena, layer by layer. So if it
fails, either the input is no value or there is no room in the arena. -/
theorem read_stacked (h : Served s) :
    (∀ t, read s = .ok .pending t → ∃ start layers, Stacked t start layers) ∧
      ∀ why t, read s = .error why t → (∃ rejection, why = .rejected rejection) ∨
        ∃ requested free, why = .fault (.arena (.outOfMemory requested free)) := by
  obtain ⟨l, b, p, hl, hvalid, hdigits, htracks⟩ := h.tracks
  have hanswers := answers_read hl hvalid htracks
  have hsound := Parse.sound_read hvalid
  have hstops := Parse.stops_read hvalid hdigits.meets
  have hexplained := Parse.explained_read hvalid
  constructor
  · intro t hread
    rw [hread] at hanswers
    obtain ⟨q, houtcome, hnext⟩ := hanswers.of_pending
    rw [houtcome] at hsound hstops
    exact ⟨_, _, hnext.stacked hl hsound hstops.1 hstops.2⟩
  · intro why t hread
    rw [hread] at hanswers
    obtain ⟨houtcome, -⟩ := hanswers.of_error
    rw [houtcome] at hexplained
    exact reason_of_explained hexplained

/-- A reader that waits in the middle of a symbol, two lists deep. -/
theorem read_stacked_symbol : ∃ a t start layers x, Arena.create 128 = .ok a ∧
    read ⟨Reader.ofDepth 4, Source.ofBytes [40, 55, 32, 96, 40, 97, 98], a⟩ = .ok .pending t ∧
      Stacked t start layers ∧ layers.getLast? = some x ∧ x.frame.kind = .symbol := by
  obtain ⟨a, ha, hlocks⟩ : ∃ a, Arena.create 128 = .ok a ∧
      locks (read ⟨Reader.ofDepth 4, Source.ofBytes [40, 55, 32, 96, 40, 97, 98], a⟩) = true :=
    ⟨_, rfl, by decide +kernel⟩
  obtain ⟨t, hread, hlocked⟩ : ∃ t, read ⟨Reader.ofDepth 4, Source.ofBytes [40, 55, 32, 96, 40, 97,
      98], a⟩ = .ok .pending t ∧ t.arena.isLocked = true := by
    unfold locks at hlocks
    split at hlocks
    · exact ⟨_, ‹_›, hlocks⟩
    · contradiction
  obtain ⟨start, layers, hstacked⟩ := (read_stacked (.fresh (ready_create 4 ha) _)).1 t hread
  obtain ⟨x, hlast, hkind⟩ := hstacked.locked.1 hlocked
  exact ⟨a, t, start, layers, x, ha, hread, hstacked, hlast, hkind⟩

end Reading

end FlatLisp
