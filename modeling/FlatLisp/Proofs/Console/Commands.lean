/-
Module: FlatLisp.Proofs.Console.Commands
Purpose: Commands between values. What a command does in the arena, reading a value to be saved or
  attaching one that was, it gives up before it ends; and two sessions between values that have the
  same store follow a command alike.
Main exports: Parse.ended, Reading.answers_readToEnd, Session.Twin.obey
-/
import FlatLisp.Proofs.Console.Draining
import FlatLisp.Proofs.Reading.Value

namespace FlatLisp

open Source (ofBytes)

/-! ### Texts that are all there is -/

namespace Parse

variable {l : Limits} {p : Parse}

/-- The read of a text that is all there is. A line end is put after it where it needs one. -/
def ended (l : Limits) (p : Parse) : Parse :=
  match p.read l with
  | .starved _ _ => p.joined [Text.Ascii.newline]
  | _ => p

theorem exists_ended (hbytes : p.OnBytes) : ∃ later, p.ended l = p.joined later := by
  unfold ended
  split
  · exact ⟨_, rfl⟩
  · exact ⟨[], (joined_onBytes hbytes).symm⟩

end Parse

namespace Reading

variable {l : Limits} {b : Arena} {p : Parse} {s : Reading}

/-- Reading a text to its end does what the read in terms of trees does. -/
theorem answers_readToEnd (hl : LimitsOf l b) (hvalid : p.Valid l) (h : Tracks l b p s)
    (hbytes : p.OnBytes) : Answers l b ((p.ended l).read l) (readToEnd s) := by
  have hanswers := answers_read hl hvalid h
  have hjoins := Parse.joins_read [Text.Ascii.newline] hvalid
  have hsound := Parse.sound_read hvalid
  have honBytes := Parse.onBytes_read hvalid hbytes
  rw [readToEnd, Parse.ended]
  cases hread : read s with
  | error why t =>
      rw [hread] at hanswers
      obtain ⟨houtcome, -⟩ := hanswers.of_error
      rw [houtcome] at hanswers
      rw [bind_error hread]
      simp only [houtcome]
      exact hanswers
  | ok status t =>
      rw [hread] at hanswers
      rw [bind_ok hread]
      cases status with
      | done place =>
          obtain ⟨tree, q, houtcome, -⟩ := hanswers.of_done
          rw [houtcome] at hanswers
          simp only [houtcome]
          exact hanswers
      | pending =>
          obtain ⟨q, houtcome, hnext⟩ := hanswers.of_pending
          rw [houtcome] at hjoins hsound honBytes
          have hahead : q.ahead = ofBytes t.reader.pushback := honBytes
          have hgiven : Tracks l b (q.joined [Text.Ascii.newline])
              ⟨t.reader, ofBytes [Text.Ascii.newline], t.arena⟩ :=
            { hnext with
              ahead := by
                rw [Parse.joined, hahead, Source.bytes_ofBytes, Source.ofBytes_append]
                rfl }
          simp only [houtcome]
          rw [hjoins.1]
          exact answers_read hl hsound.joined hgiven

/-- A value that a reader between values reads from a text fits into memory and can be traversed. -/
theorem Ready.fits {r : Reader} {a : Arena} (h : Ready r a) {bytes : List UInt8} {t : Tree}
    {q : Parse}
    (hread : ((Ready.parse r a (ofBytes bytes)).ended (Ready.limits r a)).read (Ready.limits r a) =
      .done t q) :
    t.Fits ∧ t.nesting ≤ Cell.maxNesting := by
  have honBytes : (Ready.parse r a (ofBytes bytes)).OnBytes :=
    ⟨r.pushback ++ bytes, (Source.ofBytes_append ..).symm⟩
  obtain ⟨later, hlater⟩ := Parse.exists_ended (l := Ready.limits r a) honBytes
  rw [hlater] at hread
  obtain ⟨rest, hfound, -⟩ := (h.joined (ofBytes bytes) later).found hread
  have hwithin := Grammar.read_within (Ready.limits r a).maxDepth
    ((Ready.parse r a (ofBytes bytes)).joined later).inComment
    (r.pushback ++ (ofBytes bytes).bytes ++ later)
  rw [hfound] at hwithin
  have hreadable : Grammar.Readable r.maxDepth 0 t := hwithin.2
  exact ⟨hreadable.fits, Nat.le_trans hreadable.nesting_le h.depth⟩

end Reading

namespace Session

open Reading

/-! ### Between values -/

section Idle

variable {o s s' t t' : Session} {p : Parse}

theorem Fresh.ready (ho : Fresh o) : Ready o.reader o.arena where
  idle := by
    rw [ho.reader]
    rfl
  pushback := by
    rw [ho.reader]
    exact Nat.zero_le _
  depth := by
    rw [ho.reader]
    exact Nat.min_le_right _ _
  bounded := ho.bounded
  unlocked := by rw [Arena.isLocked, ho.unlocked, Option.isSome_none]

theorem Steady.idle (ho : Fresh o) (h : Steady o p s) : s.reader.isIdle = p.isIdle :=
  h.tracks.isIdle ho.bounded

/-- Where nothing is ahead, the feed is empty and no byte has been given back. -/
theorem Steady.empty (h : Steady o p s) (hrested : p.Rested) :
    s.reader.pushback = [] ∧ s.feed = {} := by
  have hahead := h.tracks.ahead
  rw [hrested.ahead] at hahead
  obtain ⟨hpushback, hsource⟩ := List.append_eq_nil_iff.1 hahead
  exact ⟨List.map_eq_nil_iff.1 hpushback, congrArg Feed.mk (List.map_eq_nil_iff.1 hsource)⟩

/-- A reader with nothing in progress is as one that has read nothing. -/
theorem Steady.rests (ho : Fresh o) (h : Steady o p s) (hrested : p.Rested)
    (hidle : s.reader.isIdle = true) : Steady o o.fresh s := by
  have hnone : p.isIdle = true := (h.idle ho).symm.trans hidle
  simp only [Parse.isIdle, Bool.and_eq_true, List.isEmpty_iff, Option.isNone_iff_eq_none] at hnone
  have hsame : { p with count := 0 } = o.fresh := by
    obtain ⟨lists, leaf, inComment, count, start, ahead⟩ := p
    obtain ⟨rfl, rfl⟩ := hnone
    obtain ⟨rfl, rfl⟩ := hrested
    obtain rfl : start = o.arena.forward := h.tracks.start
    rfl
  refine ⟨h.settings, h.printer, h.checkpoint, o.valid_fresh _, ?_⟩
  have hplaced := h.tracks.placed 0
  rw [hsame] at hplaced
  exact hplaced

/-- Between values the arena has been cleared. -/
theorem Steady.cleared (h : Steady o o.fresh s) : o.arena.Cleared s.arena where
  size := h.tracks.laid.size
  below := h.tracks.laid.below
  above := h.tracks.laid.above
  forward := h.tracks.forward
  backward := h.tracks.laid.backward
  forwardMark := h.tracks.laid.forwardMark
  backwardMark := h.tracks.laid.backwardMark
  directions := h.tracks.laid.directions
  hold := h.tracks.held.1

/-- The reader is as at the beginning but for its position. -/
theorem Steady.reader (h : Steady o o.fresh s) :
    s.reader = { maxDepth := o.reader.maxDepth, count := s.reader.count } := by
  have hroot : s.reader.root = 0 := h.tracks.root
  have hlock : s.reader.lock = none := h.tracks.held.2
  have hcomment : s.reader.inComment = false := h.tracks.inComment
  have hpushback := (h.empty ⟨rfl, rfl⟩).1
  have hdepth : s.reader.maxDepth = o.reader.maxDepth := h.tracks.maxDepth
  generalize s.reader = r at *
  obtain ⟨root, lock, inComment, pushback, position, maxDepth⟩ := r
  subst hroot hlock hcomment hpushback hdepth
  rfl

/-- A session with nothing in progress that has given up what was allocated is between values. -/
theorem release_steady (ho : Fresh o) (hsettings : t.settings = o.settings)
    (hprinter : t.printer = o.printer) (hcheckpoint : t.guard.checkpoint = o.arena.checkpoint)
    (hcovers : o.arena.Covers t.arena) {n : UInt32}
    (hreader : t.reader = { maxDepth := o.reader.maxDepth, count := n }) (hfeed : t.feed = {}) :
    Steady o o.fresh (release t).2 ∧ (release t).2.store = t.store ∧
      (release t).2.written = t.written := by
  rw [release_covers hcheckpoint hcovers]
  exact ⟨steady_fresh ho hsettings hprinter hcheckpoint hcovers.cleared hreader hfeed, rfl, rfl⟩

/-- Twins between values remain twins when each has used its arena and given that up. -/
theorem Twin.released (ho : Fresh o) (h : Twin o o.fresh s s') {a a' : Arena}
    (ha : o.arena.Covers a) (ha' : o.arena.Covers a') {store store' : Option Store}
    (hstore : store' = store) {lines lines' : List Line}
    (hlines : List.Forall₂ Line.Agrees lines lines') :
    Twin o o.fresh (release { s with arena := a, store := store, written := lines }).2
      (release { s' with arena := a', store := store', written := lines' }).2 := by
  obtain ⟨hleft, hkept, hwritten⟩ :=
    release_steady (t := { s with arena := a, store := store, written := lines }) ho h.left.settings
      h.left.printer h.left.checkpoint ha h.left.reader (h.left.empty ⟨rfl, rfl⟩).2
  obtain ⟨hright, hkept', hwritten'⟩ :=
    release_steady (t := { s' with arena := a', store := store', written := lines' }) ho
      h.right.settings h.right.printer h.right.checkpoint ha' h.right.reader
      (h.right.empty ⟨rfl, rfl⟩).2
  refine ⟨hleft, hright, hkept'.trans (hstore.trans hkept.symm), ?_⟩
  rw [hwritten, hwritten']
  exact hlines

end Idle

/-! ### Showing -/

/-- The session with more lines written, the latest first. -/
def say (lines : List Line) (s : Session) : Session := { s with written := lines ++ s.written }

section Showing

variable {o s s' : Session} {p : Parse}

theorem Twin.say (h : Twin o p s s') {lines lines' : List Line}
    (hlines : List.Forall₂ Line.Agrees lines lines') : Twin o p (s.say lines) (s'.say lines') where
  left := ⟨h.left.settings, h.left.printer, h.left.checkpoint, h.left.valid, h.left.tracks⟩
  right := ⟨h.right.settings, h.right.printer, h.right.checkpoint, h.right.valid, h.right.tracks⟩
  store := h.store
  written := List.rel_append hlines h.written

theorem Twin.say_same (h : Twin o p s s') (lines : List Line) :
    Twin o p (s.say lines) (s'.say lines) :=
  h.say (agrees_self lines)

/-- The same is done for each of some things. -/
theorem forIn_each {α : Type} (xs : List α) (job : α → SessionM Unit) (s : Session) :
    (forIn xs PUnit.unit fun x _ => do
      job x
      return ForInStep.yield PUnit.unit : SessionM PUnit) s =
      (⟨⟩, xs.foldl (fun t x => (job x t).2) s) := by
  induction xs generalizing s with
  | nil => rfl
  | cons x rest ih =>
      rw [List.forIn_cons, state_bind]
      exact ih _

theorem foldl_out {α : Type} (xs : List α) (text : α → String) (s : Session) :
    xs.foldl (fun t x => (out (text x) t).2) s = s.say (xs.map fun x => .out (text x)).reverse := by
  induction xs generalizing s with
  | nil => rfl
  | cons x rest ih =>
      rw [List.foldl_cons, ih, say, say, List.map_cons, List.reverse_cons, List.append_assoc]
      rfl

/-- The lines that show what is allocated in a store, the latest first. -/
def blockLines : Option Store → List Line
  | none => [.out noStore]
  | some store => ((store.blocks.filter (!·.free)).map fun b =>
      .out s!"{Text.Hex.address b.address} {b.capacity} bytes").reverse

theorem listBlocks_eq (s : Session) : listBlocks s = ((), s.say (blockLines s.store)) := by
  unfold listBlocks
  rw [session_bind]
  cases s.store with
  | none => rfl
  | some store =>
      refine (forIn_each _ _ s).trans ?_
      rw [foldl_out]
      rfl

/-- The lines that show the figures of an arena and a store, the latest first. -/
def statLines (f : Arena.Stats) (store : Option Store) : List Line :=
  (store.map fun store => Line.out s!"store {store.freeSpace} bytes free").toList ++
    [.out s!"arena {f.capacity} bytes: {f.forwardUsed} forward, {f.backwardUsed} backward, {
      f.free} free"]

theorem showStats_eq (s : Session) :
    showStats s = ((), s.say (statLines s.arena.stats s.store)) := by
  unfold showStats
  rw [session_bind, state_bind]
  cases s.store with
  | none => rfl
  | some store => rfl

/-- Twins between values have the same figures. -/
theorem Twin.statLines (h : Twin o o.fresh s s') :
    statLines s'.arena.stats s'.store = statLines s.arena.stats s.store := by
  have halike := h.left.cleared.alike h.right.cleared
  have hcapacity : s'.arena.capacity = s.arena.capacity := halike.size
  simp only [Session.statLines, Arena.stats, h.store, halike.forward, halike.backward, halike.free,
    hcapacity]

end Showing

/-! ### Saving -/

/-- The state in which an attempt to persist a value leaves a session. -/
def persisted (place : Place) (store : Store) (a : Arena) (s : Session) : Session :=
  match Backed.persist place ⟨a, store⟩ with
  | .ok block b =>
      { s with
        arena := b.arena, store := some b.store
        written := .out s!"Saved at {Text.Hex.address block}" :: s.written }
  | .error why b =>
      { s with
        arena := b.arena, store := some b.store
        written := .err ("Store error: " ++ why.message) :: s.written }

/-- The state in which the text of a value to be saved leaves a session, before all is given up. -/
def taken (text : String) (store : Store) (s : Session) : Session :=
  match Reading.readToEnd
    ⟨Reader.ofDepth s.settings.maxDepth, ofBytes (Text.Utf8.encode text), s.arena⟩ with
  | .ok (.done place) r => persisted place store r.arena s
  | .ok .pending r =>
      { s with arena := r.arena, written := .out "Incomplete expression." :: s.written }
  | .error why r =>
      { s with
        arena := r.arena, written := .err ("Read error: " ++ why.message) :: s.written }

section Saving

variable {o s s' : Session}

theorem saveText_none (text : String) (h : s.store = none) :
    saveText text s = ((), s.say [.out noStore]) := by
  unfold saveText
  rw [session_bind, h]
  rfl

theorem saveText_some (text : String) {store : Store} (h : s.store = some store) :
    saveText text s = release (taken text store s) := by
  unfold saveText taken
  rw [session_bind, h]
  dsimp only
  cases Reading.readToEnd
    ⟨Reader.ofDepth s.settings.maxDepth, ofBytes (Text.Utf8.encode text), s.arena⟩ with
  | error why r => rfl
  | ok status r =>
      cases status with
      | pending => rfl
      | done place =>
          dsimp only
          unfold persisted
          cases Backed.persist place ⟨r.arena, store⟩ <;> rfl

/-- What the text of a value to be saved comes to, where reading it in terms of trees has an
outcome. -/
inductive Takes (o : Session) (store : Store) (s : Session) : Parse.Outcome → Session → Prop where
  | pending {kept : List UInt8} {q : Parse} {a : Arena} (hcovers : o.arena.Covers a) :
      Takes o store s (.starved kept q)
        { s with arena := a, written := .out "Incomplete expression." :: s.written }
  | value {t : Tree} {q : Parse} {a : Arena} (hfinished : Finished o.arena t a) :
      Takes o store s (.done t q) (persisted ⟨.arena, o.arena.forward⟩ store a s)
  | failed {why : ReadError} {a : Arena} (hcovers : o.arena.Covers a) :
      Takes o store s (.failed why)
        { s with arena := a, written := .err ("Read error: " ++ why.message) :: s.written }

/-- The read of a text by a reader of its own. -/
def textRead (o : Session) (text : String) : Parse :=
  (Ready.parse o.reader o.arena (ofBytes (Text.Utf8.encode text))).ended o.limits

theorem Steady.takes (ho : Fresh o) (h : Steady o o.fresh s) (text : String) (store : Store) :
    Takes o store s ((o.textRead text).read o.limits) (taken text store s) := by
  have hready := ho.ready
  have hidle := hready.idle
  simp only [Reader.isIdle, Bool.and_eq_true, beq_iff_eq, Option.isNone_iff_eq_none] at hidle
  have htracks : Tracks o.limits o.arena
      (Ready.parse o.reader o.arena (ofBytes (Text.Utf8.encode text)))
      ⟨o.reader, ofBytes (Text.Utf8.encode text), s.arena⟩ :=
    tracks_cleared ho.bounded h.cleared hidle.1 hidle.2 hready.pushback rfl _
  have hreader : Reader.ofDepth s.settings.maxDepth = o.reader := by
    rw [ho.reader, h.settings]
  have hanswers := answers_readToEnd ho.limitsOf (Ready.valid _) htracks
    ⟨o.reader.pushback ++ Text.Utf8.encode text, (Source.ofBytes_append ..).symm⟩
  rw [taken, hreader, textRead]
  generalize Reading.readToEnd ⟨o.reader, ofBytes (Text.Utf8.encode text), s.arena⟩ = result
    at hanswers
  cases result with
  | error why r =>
      obtain ⟨houtcome, hcovers⟩ := hanswers.of_error
      rw [houtcome]
      exact .failed hcovers
  | ok status r =>
      cases status with
      | pending =>
          obtain ⟨q, houtcome, hnext⟩ := hanswers.of_pending
          rw [houtcome]
          exact .pending (hnext.laid.covers ho.bounded)
      | done place =>
          obtain ⟨tree, q, houtcome, rfl, hfinished, -⟩ := hanswers.of_done
          rw [houtcome]
          exact .value hfinished

/-- Twins between values save alike. -/
theorem Twin.saveText (ho : Fresh o) (h : Twin o o.fresh s s') (text : String) :
    Twin o o.fresh (saveText text s).2 (saveText text s').2 := by
  cases hstore : s.store with
  | none =>
      rw [saveText_none text hstore, saveText_none text (h.store.trans hstore)]
      exact h.say_same _
  | some store =>
      have htakes := h.left.takes ho text store
      have htakes' := h.right.takes ho text store
      rw [saveText_some text hstore, saveText_some text (h.store.trans hstore)]
      generalize taken text store s = t at htakes
      generalize taken text store s' = t' at htakes'
      generalize houtcome : (o.textRead text).read o.limits = outcome at htakes htakes'
      cases htakes with
      | pending hcovers =>
          cases htakes' with
          | pending hcovers' =>
              exact h.released ho hcovers hcovers' h.store (.cons (.same _) h.written)
      | failed hcovers =>
          cases htakes' with
          | failed hcovers' =>
              exact h.released ho hcovers hcovers' h.store (.cons (.same _) h.written)
      | @value t _ a hfinished =>
          cases htakes' with
          | @value _ _ a' hfinished' =>
              obtain ⟨hfits, hnesting⟩ := ho.ready.fits houtcome
              have hcovers : ∀ {x y : Arena}, Finished o.arena t x → x.Alike y → o.arena.Covers y :=
                fun hx hy => (hx.laid.continues.after hy).covers
              rcases Backed.persist_alike (hfinished.bounded ho.bounded)
                (hfinished.alike hfinished') hfits hnesting
                (hfinished.written ho.bounded store.external) with
                ⟨e, e', x, x', hresult, hresult', hwhy, hx, hx'⟩ |
                ⟨block, store', x, x', -, hresult, hresult', hx, hx'⟩
              · rw [persisted, persisted, hresult, hresult']
                have hagrees : Line.Agrees (.err ("Store error: " ++ e.message))
                    (.err ("Store error: " ++ e'.message)) := by
                  rcases hwhy with rfl | ⟨hout, hout'⟩
                  · exact .same _
                  · exact .short hout hout'
                exact h.released ho (hcovers hfinished hx) (hcovers hfinished' hx') rfl
                  (.cons hagrees h.written)
              · rw [persisted, persisted, hresult, hresult']
                exact h.released ho (hcovers hfinished hx) (hcovers hfinished' hx') rfl
                  (.cons (.same _) h.written)

end Saving

/-! ### Loading and freeing -/

section Loading

variable {o s s' : Session}

theorem loadBlock_none (block : Nat) (h : s.store = none) :
    loadBlock block s = ((), s.say [.out noStore]) := by
  unfold loadBlock
  rw [session_bind, h]
  rfl

theorem loadBlock_error (block : Nat) {store : Store} (h : s.store = some store) {e : Fault}
    {a : Arena} (hattach : Cell.attach store.external block s.arena = .error e a) :
    loadBlock block s = release { s with
      arena := a
      written := .err ("Store error: " ++ e.message) :: s.written } := by
  cases s
  cases h
  unfold loadBlock
  rw [session_bind]
  dsimp only
  rw [state_bind, withArena_error hattach]
  rfl

theorem loadBlock_ok (block : Nat) {store : Store} (h : s.store = some store) {place : Place}
    {a : Arena} (hattach : Cell.attach store.external block s.arena = .ok place a) :
    loadBlock block s = release { s with
      arena := after (Cell.render s.external s.settings.print place a)
      written := echoed (Cell.render s.external s.settings.print place a) :: s.written } := by
  cases s
  cases h
  unfold loadBlock
  rw [session_bind]
  dsimp only
  rw [state_bind, withArena_ok hattach]
  dsimp only
  rw [state_bind, echo_eq]
  rfl

/-- An attached cell that has been written can be given up. -/
theorem Fresh.covers_attached (ho : Fresh o) {a : Arena} (h : o.arena.Cleared a)
    {bytes : List UInt8} (hroom : bytes.length ≤ a.free) (ext : External) (options : PrintOptions) :
    o.arena.Covers
      (after (Cell.render ext options ⟨.arena, o.arena.forward⟩ (a.appended bytes))) := by
  have hb := h.toAlike.bounded ho.bounded
  have hattached : o.arena.Continues (a.appended bytes) :=
    h.toAlike.continues.trans ⟨Arena.preserves_appended hroom hb, rfl, rfl⟩
  have happended := Arena.bounded_appended hroom hb
  have hrendered := Cell.render_untouched happended ho.place ext options
  exact (hattached.after hrendered.toAlike).covers

/-- Twins between values load alike. -/
theorem Twin.loadBlock (ho : Fresh o) (h : Twin o o.fresh s s') (block : Nat) :
    Twin o o.fresh (loadBlock block s).2 (loadBlock block s').2 := by
  cases hstore : s.store with
  | none =>
      rw [loadBlock_none block hstore, loadBlock_none block (h.store.trans hstore)]
      exact h.say_same _
  | some store =>
      have hcleared := h.left.cleared
      have hcleared' := h.right.cleared
      have halike := hcleared.alike hcleared'
      have hb := hcleared.toAlike.bounded ho.bounded
      have hattaches := Cell.attach_alike hb halike (hcleared'.hold.trans hcleared.hold.symm)
        store.external block
      rw [hcleared.forward] at hattaches
      rcases hattaches with ⟨e, hattach, hattach'⟩ | ⟨bytes, hroom, hattach, hattach'⟩
      · rw [loadBlock_error block hstore hattach,
          loadBlock_error block (h.store.trans hstore) hattach']
        exact h.released ho hcleared.covers hcleared'.covers h.store (.cons (.same _) h.written)
      · have hechoed := echoed_congr (Cell.render_alike (Arena.bounded_appended hroom hb)
          (halike.appended hb hroom) ho.place s.external s.settings.print)
        have hrender :
            Cell.render s'.external s'.settings.print =
              Cell.render s.external s.settings.print := by
          rw [h.right.settings.trans h.left.settings.symm, external, external, h.store]
        rw [loadBlock_ok block hstore hattach, loadBlock_ok block (h.store.trans hstore) hattach',
          hrender, hechoed]
        exact h.released ho (ho.covers_attached hcleared hroom _ _)
          (ho.covers_attached hcleared' (halike.free ▸ hroom) _ _) h.store
          (.cons (.same _) h.written)

theorem freeBlock_none (block : Nat) (h : s.store = none) :
    freeBlock block s = ((), s.say [.out noStore]) := by
  unfold freeBlock
  rw [session_bind, h]
  rfl

theorem freeBlock_error (block : Nat) {store store' : Store} (h : s.store = some store)
    {why : StoreError} (hfree : store.free block = .error why store') :
    freeBlock block s = ((), s.say [.err ("Store error: " ++ why.message)]) := by
  unfold freeBlock
  rw [session_bind, h]
  dsimp only
  rw [hfree]
  rfl

theorem freeBlock_ok (block : Nat) {store store' : Store} (h : s.store = some store)
    (hfree : store.free block = .ok () store') :
    freeBlock block s = ((), { s with store := some store' }) := by
  cases s
  cases h
  unfold freeBlock
  rw [session_bind]
  dsimp only
  rw [hfree]
  rfl

theorem Twin.freeBlock (h : Twin o o.fresh s s') (block : Nat) :
    Twin o o.fresh (freeBlock block s).2 (freeBlock block s').2 := by
  cases hstore : s.store with
  | none =>
      rw [freeBlock_none block hstore, freeBlock_none block (h.store.trans hstore)]
      exact h.say_same _
  | some store =>
      have hstore' := h.store.trans hstore
      cases hfree : store.free block with
      | error why store' =>
          rw [freeBlock_error block hstore hfree, freeBlock_error block hstore' hfree]
          exact h.say_same _
      | ok _ store' =>
          rw [freeBlock_ok block hstore hfree, freeBlock_ok block hstore' hfree]
          exact ⟨⟨h.left.settings, h.left.printer, h.left.checkpoint, h.left.valid, h.left.tracks⟩,
            ⟨h.right.settings, h.right.printer, h.right.checkpoint, h.right.valid, h.right.tracks⟩,
            rfl, h.written⟩

end Loading

/-! ### All commands -/

/-- Twins between values follow a command alike, and are between values again. -/
theorem Twin.obey {o s s' : Session} (ho : Fresh o) (h : Twin o o.fresh s s') (command : Command) :
    (obey command s').1 = (obey command s).1 ∧
      Twin o o.fresh (obey command s).2 (obey command s').2 := by
  cases command with
  | quit => exact ⟨rfl, h⟩
  | stats =>
      refine ⟨rfl, ?_⟩
      change Twin o o.fresh (showStats s).2 (showStats s').2
      rw [showStats_eq, showStats_eq, h.statLines]
      exact h.say_same _
  | blocks =>
      refine ⟨rfl, ?_⟩
      change Twin o o.fresh (listBlocks s).2 (listBlocks s').2
      rw [listBlocks_eq, listBlocks_eq, h.store]
      exact h.say_same _
  | save text => exact ⟨rfl, h.saveText ho text⟩
  | load block =>
      cases block with
      | none => exact ⟨rfl, h.say_same [.out "Usage: :load <block>"]⟩
      | some block => exact ⟨rfl, h.loadBlock ho block⟩
  | free block =>
      cases block with
      | none => exact ⟨rfl, h.say_same [.out "Usage: :free <block>"]⟩
      | some block => exact ⟨rfl, h.freeBlock block⟩
  | help =>
      exact ⟨rfl, h.say_same
        [.out "Commands: :save <expr>, :load <block>, :free <block>, :blocks, :stats, :quit"]⟩

end Session

end FlatLisp
