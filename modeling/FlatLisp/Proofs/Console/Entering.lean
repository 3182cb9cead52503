/-
Module: FlatLisp.Proofs.Console.Entering
Purpose: Lines as they are handled. A line leaves nothing ahead, and two sessions with the same
  value in progress and the same store handle it alike, so that they do the same for as long as they
  are given the same lines.
Main exports: Session.Twin.enter, Session.Twin.enterAll, Session.Twin.readFile
-/
import FlatLisp.Proofs.Console.Commands

namespace FlatLisp

open Source (ofBytes)

namespace Session

open Reading

/-! ### What is missing -/

/-- What a read lacks whose reader has given no byte back. -/
def lacking (p : Parse) : Option String :=
  if p.isIdle then none else some (Text.Utf8.decodeLossy (Printing.missing false p.openContexts))

section Missing

variable {o s s' : Session} {p : Parse}

/-- To show what is missing changes nothing. -/
theorem Steady.missing_eq (ho : Fresh o) (h : Steady o p s) (hrested : p.Rested) :
    missing s = (lacking p, s) := by
  have hsigil : s.reader.pendingSigil = false := by
    rw [pendingSigil_eq, (h.empty hrested).1]
    rfl
  unfold missing
  rw [h.idle ho, hsigil, lacking]
  cases hidle : p.isIdle with
  | true => rfl
  | false =>
      have hviews : Printing.Views s.reader s.arena p.openContexts :=
        h.tracks.views ho.limitsOf h.valid
      have hbusy : s.printer.isBusy = false := by
        rw [h.printer, ho.printer]
        rfl
      obtain ⟨k, hprint, hbytes⟩ := Printing.printMissing_transcript hviews {} hbusy
      rw [hsigil] at hbytes
      simp only [Bool.false_and, Bool.false_eq_true, if_false, hprint, Transcript.text, hbytes]
      rfl

end Missing

/-! ### Lines that are read -/

/-- The session with a line put into its feed. -/
def given (line : String) (s : Session) : Session := { s with feed := s.feed.pushLine line }

/-- After all input was good, what is missing is shown. -/
def hinted (good : Bool) (s : Session) : Session :=
  if good then
    match missing s with
    | (some text, t) => t.say [.out ("  ; missing: " ++ text)]
    | (none, t) => t
  else s

section Lines

variable {o s s' : Session} {p : Parse}

theorem enter_command {line : String} {command : Command} (hidle : s.reader.isIdle = true)
    (hcommand : Command.ofLine? line = some command) :
    enter line s = obey command s := by
  unfold enter
  dsimp only
  rw [session_bind, hidle, if_pos rfl, hcommand]

theorem enter_text {line : String}
    (h : s.reader.isIdle = false ∨ Command.ofLine? line = none) :
    enter line s = (true, hinted (drain (s.given line)).1 (drain (s.given line)).2) := by
  have hcommand :
      (if s.reader.isIdle then Command.ofLine? line else none) = none := by
    rcases h with hbusy | hnone
    · rw [hbusy, if_neg Bool.false_ne_true]
    · rw [hnone, ite_self]
  unfold enter
  dsimp only
  rw [session_bind, hcommand]
  dsimp only
  rw [state_bind, state_bind]
  change (if (drain (s.given line)).1 = true then _ else _ : SessionM Bool)
    (drain (s.given line)).2 = _
  generalize drain (s.given line) = result
  obtain ⟨good, t⟩ := result
  cases good with
  | false => rfl
  | true =>
      change _ = (true, match missing t with
        | (some text, u) => u.say [.out ("  ; missing: " ++ text)]
        | (none, u) => u)
      rw [if_pos rfl, state_bind]
      cases missing t with
      | mk text u => cases text <;> rfl

/-- Where nothing is ahead, any bytes may come. -/
theorem Steady.fed (h : Steady o p s) (hrested : p.Rested) (bytes : List UInt8) :
    Steady o { p with ahead := ofBytes bytes } { s with feed := ⟨bytes⟩ } where
  settings := h.settings
  printer := h.printer
  checkpoint := h.checkpoint
  valid := h.valid.of_same rfl rfl
  tracks :=
    { h.tracks with
      ahead := by
        change ofBytes s.reader.pushback ++ ofBytes bytes = _
        rw [(h.empty hrested).1]
        rfl }

/-- The read `p` with a line before it. -/
def lined (line : String) (p : Parse) : Parse :=
  { p with ahead := ofBytes (Text.Utf8.encode line ++ [Text.Ascii.newline]) }

theorem Steady.given (h : Steady o p s) (hrested : p.Rested) (line : String) :
    Steady o (lined line p) (s.given line) := by
  rw [Session.given, (h.empty hrested).2]
  exact h.fed hrested _

theorem Twin.given (h : Twin o p s s') (hrested : p.Rested) (line : String) :
    Twin o (lined line p) (s.given line) (s'.given line) :=
  ⟨h.left.given hrested line, h.right.given hrested line, h.store, h.written⟩

/-- A line is read, and nothing is ahead any more. -/
theorem Twin.drain_given (ho : Fresh o) (h : Twin o p s s') (hrested : p.Rested) (line : String) :
    ∃ q, q.Rested ∧ (Session.drain (s'.given line)).1 = (Session.drain (s.given line)).1 ∧
      Twin o q (Session.drain (s.given line)).2 (Session.drain (s'.given line)).2 := by
  have hlines : (lined line p).OnLines := hrested.onLines
  obtain ⟨q, hnext, hgood, htwin, -⟩ := (h.given hrested line).drain ho hlines.onBytes
  exact ⟨q, hnext hlines, hgood, htwin⟩

theorem Twin.hinted (ho : Fresh o) (h : Twin o p s s') (hrested : p.Rested) (good : Bool) :
    Twin o p (hinted good s) (hinted good s') := by
  cases good with
  | false => exact h
  | true =>
      rw [Session.hinted, Session.hinted, h.left.missing_eq ho hrested,
        h.right.missing_eq ho hrested]
      cases lacking p with
      | none => exact h
      | some text => exact h.say_same _

/-- A line is handled alike, and nothing is ahead any more. -/
theorem Twin.enter (ho : Fresh o) (h : Twin o p s s') (hrested : p.Rested) (line : String) :
    ∃ q, q.Rested ∧ (enter line s').1 = (enter line s).1 ∧
      Twin o q (enter line s).2 (enter line s').2 := by
  have hidle : s'.reader.isIdle = s.reader.isIdle := (h.right.idle ho).trans (h.left.idle ho).symm
  have htext (hno : s.reader.isIdle = false ∨ Command.ofLine? line = none) :
      ∃ q, q.Rested ∧ (Session.enter line s').1 = (Session.enter line s).1 ∧
        Twin o q (Session.enter line s).2 (Session.enter line s').2 := by
    obtain ⟨q, hnext, hgood, htwin⟩ := h.drain_given ho hrested line
    rw [enter_text hno, enter_text (hidle ▸ hno), hgood]
    exact ⟨q, hnext, rfl, htwin.hinted ho hnext _⟩
  cases hready : s.reader.isIdle with
  | false => exact htext (.inl hready)
  | true =>
      cases hcommand : Command.ofLine? line with
      | none => exact htext (.inr hcommand)
      | some command =>
          rw [enter_command hready hcommand, enter_command (hidle.trans hready) hcommand]
          have hrests : Twin o o.fresh s s' :=
            ⟨h.left.rests ho hrested hready, h.right.rests ho hrested (hidle.trans hready), h.store,
              h.written⟩
          obtain ⟨hgoes, htwin⟩ := hrests.obey ho command
          exact ⟨o.fresh, ⟨rfl, rfl⟩, hgoes, htwin⟩

theorem enterAll_cons (line : String) (rest : List String) (s : Session) :
    enterAll (line :: rest) s =
      if (enter line s).1 then enterAll rest (enter line s).2 else (false, (enter line s).2) := by
  rw [enterAll, state_bind]
  cases (enter line s).1 <;> rfl

/-- So are all lines until one ends the session. -/
theorem Twin.enterAll (ho : Fresh o) (h : Twin o p s s') (hrested : p.Rested)
    (lines : List String) : ∃ q, q.Rested ∧ (enterAll lines s').1 = (enterAll lines s).1 ∧
      Twin o q (enterAll lines s).2 (enterAll lines s').2 := by
  induction lines generalizing p s s' with
  | nil => exact ⟨p, hrested, rfl, h⟩
  | cons line rest ih =>
      obtain ⟨q, hnext, hgoes, htwin⟩ := h.enter ho hrested line
      rw [enterAll_cons, enterAll_cons, hgoes]
      cases (Session.enter line s).1 with
      | false => exact ⟨q, hnext, rfl, htwin⟩
      | true => exact ih htwin hnext

end Lines

/-! ### Files -/

section Files

variable {o s s' : Session} {p : Parse}

theorem abandonInput_eq (s : Session) :
    abandonInput s = release { s with reader := s.reader.reset, printer := s.printer.reset } := rfl

/-- The value in progress is forgotten. -/
theorem Twin.abandonInput (ho : Fresh o) (h : Twin o p s s') (hrested : p.Rested) :
    Twin o o.fresh (abandonInput s).2 (abandonInput s').2 := by
  have habandoned {t : Session} (ht : Steady o p t) :
      Steady o o.fresh (Session.abandonInput t).2 ∧ (Session.abandonInput t).2.store = t.store ∧
        (Session.abandonInput t).2.written = t.written := by
    have hprinter : t.printer.reset = o.printer := by
      rw [ht.printer, ho.printer]
      rfl
    have hreader :
        t.reader.reset = { maxDepth := o.reader.maxDepth, count := t.reader.count } := by
      rw [Reader.reset, show t.reader.maxDepth = o.reader.maxDepth from ht.tracks.maxDepth]
    have hcovers : o.arena.Covers t.arena := ht.covers ho
    rw [abandonInput_eq]
    exact release_steady ho ht.settings hprinter ht.checkpoint hcovers hreader (ht.empty hrested).2
  obtain ⟨hleft, hstore, hwritten⟩ := habandoned h.left
  obtain ⟨hright, hstore', hwritten'⟩ := habandoned h.right
  refine ⟨hleft, hright, hstore'.trans (h.store.trans hstore.symm), ?_⟩
  rw [hwritten, hwritten']
  exact h.written

theorem finishFile_eq (path : String) (s : Session) :
    finishFile path s = match missing s with
      | (some text, t) => abandonInput
          (t.say [.err s!"Incomplete expression at end of {path}, missing: {text}"])
      | (none, t) => ((), t) := by
  rw [finishFile, state_bind]
  cases missing s with
  | mk text t => cases text <;> rfl

/-- A file is ended alike, and nothing is ahead then. -/
theorem Twin.finishFile (ho : Fresh o) (h : Twin o p s s') (hrested : p.Rested) (path : String) :
    ∃ q, q.Rested ∧ Twin o q (finishFile path s).2 (finishFile path s').2 := by
  rw [finishFile_eq, finishFile_eq, h.left.missing_eq ho hrested, h.right.missing_eq ho hrested]
  cases lacking p with
  | none => exact ⟨p, hrested, h⟩
  | some text => exact ⟨o.fresh, ⟨rfl, rfl⟩, (h.say_same _).abandonInput ho hrested⟩

/-- The lines of a file are handled alike. -/
theorem Twin.readLines (ho : Fresh o) (h : Twin o p s s') (hrested : p.Rested)
    (lines : List String) :
    ∃ q, q.Rested ∧ Twin o q (lines.foldl (fun t line => (readLine line t).2) s)
      (lines.foldl (fun t line => (readLine line t).2) s') := by
  induction lines generalizing p s s' with
  | nil => exact ⟨p, hrested, h⟩
  | cons line rest ih =>
      obtain ⟨q, hnext, -, htwin⟩ := h.drain_given ho hrested line
      exact ih htwin hnext

theorem readFile_eq (path text : String) (s : Session) :
    readFile path text s =
      finishFile path ((linesOf text).foldl (fun t line => (readLine line t).2) s) := by
  rw [readFile, state_bind, forIn_each]

theorem Twin.readFile (ho : Fresh o) (h : Twin o p s s') (hrested : p.Rested) (path text : String) :
    ∃ q, q.Rested ∧ Twin o q (readFile path text s).2 (readFile path text s').2 := by
  obtain ⟨q, hnext, htwin⟩ := h.readLines ho hrested (linesOf text)
  rw [readFile_eq, readFile_eq]
  exact htwin.finishFile ho hnext path

end Files

end Session

end FlatLisp
