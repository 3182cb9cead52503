/-
Module: FlatLisp.Proofs.Reading.Shortage
Purpose: All that a bound on memory can change is that a read runs out of it. Otherwise it does what
  it does with memory without bound. So a read fails for two reasons only: the input is no value, or
  memory has run out.
Main exports: Limits.unbounded, Parse.turn_unbounded, Parse.read_unbounded, Parse.explained_read
-/
import FlatLisp.Proofs.Reading.Progress

namespace FlatLisp

/-- The same limits with no bound on memory. -/
def Limits.unbounded (l : Limits) : Limits := { l with stop := none }

namespace Parse

open Reading

variable {l : Limits} {p q : Parse}

theorem Valid.unbounded (h : p.Valid l) : p.Valid l.unbounded := ⟨h.lists, h.leaf, h.depth⟩

/-- Memory has run out: there is less of it than was asked for. -/
def Outcome.RanOut (outcome : Outcome) : Prop :=
  ∃ requested free, free < requested ∧ outcome = .failed (Limits.outOfMemory requested free)

theorem shortage_ranOut {frames used length : Nat} {why : ReadError}
    (h : l.shortage frames used length = some why) : (Outcome.failed why).RanOut := by
  unfold Limits.shortage at h
  split at h
  · contradiction
  · rename_i stop hstop
    dsimp only at h
    generalize Limits.free stop frames used = room at h
    split at h
    · injection h with h
      exact ⟨_, _, ‹_›, by rw [h]⟩
    split at h
    · injection h with h
      exact ⟨_, _, ‹_›, by rw [h]⟩
    split at h
    · injection h with h
      exact ⟨_, _, ‹_›, by rw [h]⟩
    · contradiction

theorem begin_unbounded (p next : Parse) (length : Nat) :
    p.begin l length next = p.begin l.unbounded length next ∨
      (p.begin l length next).RanOut := by
  have hunbounded : l.unbounded.shortage p.frames p.used length = none := rfl
  unfold begin
  rw [hunbounded]
  cases hshortage : l.shortage p.frames p.used length with
  | none => exact .inl rfl
  | some why => exact .inr (shortage_ranOut hshortage)

theorem accept_unbounded (p : Parse) (token : Token) :
    p.accept l token = p.accept l.unbounded token ∨ (p.accept l token).RanOut := by
  cases token with
  | comment | close => exact .inl rfl
  | list sigil =>
      have hbegin := begin_unbounded (l := l) p { p with lists := ⟨sigil, []⟩ :: p.lists }
        Header.listLength
      by_cases hdepth : l.maxDepth ≤ p.lists.length
      · rw [accept, accept, if_pos hdepth, if_pos (show l.unbounded.maxDepth ≤ _ from hdepth)]
        exact .inl rfl
      · rw [accept, accept, if_neg hdepth, if_neg (show ¬ l.unbounded.maxDepth ≤ _ from hdepth)]
        exact hbegin
  | symbol sigil quoted => exact begin_unbounded p _ _
  | integer => exact begin_unbounded p _ _

/-- A scan with less room does what it does with more, or the room is full. -/
theorem scanSymbol_room (quoted escaped : Bool) {length : Nat} (room : Nat) (source : Source)
    (hlength : length ≤ Header.maxSymbol) (more : Nat) :
    (scanSymbol quoted escaped length room source).ending ≠ .full ∧
        scanSymbol quoted escaped length room source =
          scanSymbol quoted escaped length (room + more) source ∨
      (scanSymbol quoted escaped length room source).ending = .full ∧
        length + room < Header.maxSymbol := by
  fun_induction scanSymbol quoted escaped length room source with
  | case1 | case2 => exact .inl (by simp [scanSymbol, SymbolRun.stop])
  | case3 _ _ _ _ _ hends =>
      rw [scanSymbol_cons, if_pos hends]
      exact .inl ⟨SymbolRun.Ending.noConfusion, rfl⟩
  | case4 _ _ _ _ _ hends hescape ih =>
      rw [scanSymbol_cons, if_neg hends, if_pos hescape]
      rcases ih hlength with ⟨hending, h⟩ | h
      · exact .inl ⟨hending, by rw [h]⟩
      · exact .inr h
  | case5 _ _ _ _ _ hends hescape hquote =>
      rw [scanSymbol_cons, if_neg hends, if_neg hescape, if_pos hquote]
      exact .inl ⟨SymbolRun.Ending.noConfusion, rfl⟩
  | case6 _ _ _ _ hends hescape hquote =>
      rw [scanSymbol_cons, if_neg hends, if_neg hescape, if_neg hquote, if_pos rfl]
      exact .inl ⟨SymbolRun.Ending.noConfusion, rfl⟩
  | case7 => exact .inr ⟨rfl, by omega⟩
  | case8 _ _ _ _ hends hescape hquote hshort room ih =>
      rw [scanSymbol_cons, if_neg hends, if_neg hescape, if_neg hquote, if_neg hshort,
        Nat.succ_add]
      dsimp only
      rcases ih (by omega) with ⟨hending, h⟩ | ⟨hfull, hroom⟩
      · exact .inl ⟨hending, by rw [h]⟩
      · exact .inr ⟨hfull, by omega⟩

theorem symbolTurn_unbounded {sigil : Sigil} {quoted escaped : Bool} {chars : List UInt8}
    (hlength : chars.length ≤ Header.maxSymbol) :
    p.symbolTurn l sigil quoted escaped chars =
        p.symbolTurn l.unbounded sigil quoted escaped chars ∨
      (p.symbolTurn l sigil quoted escaped chars).RanOut := by
  cases hstop : l.stop with
  | none =>
      have hsame : l.unbounded = l := by
        rw [Limits.unbounded, ← hstop]
      rw [hsame]
      exact .inl rfl
  | some stop =>
      have hreserved : l.reserved p.frames p.text =
          min Header.maxSymbol (Limits.free stop p.frames p.text) := by
        rw [Limits.reserved, hstop]
      have hunbounded : l.unbounded.reserved p.frames p.text = Header.maxSymbol := rfl
      rw [symbolTurn, symbolTurn, hunbounded]
      generalize hroom : l.reserved p.frames p.text - chars.length = room
      obtain ⟨more, hmore⟩ : ∃ more, Header.maxSymbol - chars.length = room + more :=
        ⟨Header.maxSymbol - chars.length - room, by omega⟩
      rw [hmore]
      rcases scanSymbol_room quoted escaped room p.ahead hlength more with hsame | ⟨hfull, hless⟩
      · -- With any other ending no figure of the memory is looked at.
        obtain ⟨hending, hsame⟩ := hsame
        rw [← hsame]
        generalize scanSymbol quoted escaped chars.length room p.ahead = run at hending
        dsimp only [afterSymbol]
        cases hrun : run.ending with
        | starved | tooLong | closed => exact .inl rfl
        | full => exact (hending hrun).elim
      · refine .inr ⟨1, l.freeBeside p.frames p.text, ?_, ?_⟩
        · rw [Limits.freeBeside, hstop]
          simp only [hreserved, Limits.free]
          simp only [hreserved, Limits.free] at hroom
          omega
        · dsimp only [afterSymbol]
          rw [hfull]

/-- One turn does what it does with memory without bound, or it runs out of memory. -/
theorem turn_unbounded (hvalid : p.Valid l) :
    p.turn l = p.turn l.unbounded ∨ (p.turn l).RanOut := by
  cases hcomment : p.inComment with
  | true =>
      rw [turn_of_comment hcomment, turn_of_comment hcomment]
      exact .inl rfl
  | false =>
      cases hleaf : p.leaf with
      | none =>
          rw [turn_of_token hcomment hleaf, turn_of_token hcomment hleaf, tokenTurn, tokenTurn]
          generalize scanLead (levelOf p.lists) 0 p.ahead = scan
          obtain ⟨taken, lead⟩ := scan
          cases lead with
          | starved | rejected => exact .inl rfl
          | accepted token back => exact accept_unbounded _ token
      | some leaf =>
          have hfits := hvalid.leaf leaf hleaf
          cases leaf with
          | symbol sigil quoted escaped chars =>
              rw [turn_of_symbol hcomment hleaf, turn_of_symbol hcomment hleaf]
              exact symbolTurn_unbounded hfits.1
          | integer negative digits magnitude =>
              rw [turn_of_integer hcomment hleaf, turn_of_integer hcomment hleaf]
              exact .inl rfl

/-- A read does what it does with memory without bound, or it runs out of memory. -/
theorem read_unbounded (hvalid : p.Valid l) :
    p.read l = p.read l.unbounded ∨ (p.read l).RanOut := by
  induction p, hvalid using read_induction with
  | step p hvalid ih =>
      rw [read_eq hvalid, read_eq hvalid.unbounded]
      rcases turn_unbounded hvalid with hsame | hout
      · rw [← hsame]
        cases hturn : p.turn l with
        | again q => exact ih q (valid_of_again hvalid hturn) hturn
        | starved | done | failed => exact .inl rfl
      · obtain ⟨requested, free, hless, hturn⟩ := hout
        rw [hturn]
        exact .inr ⟨requested, free, hless, rfl⟩

/-! ### Why reads fail -/

/-- Where there is a failure, the input is no value, or memory has run out. -/
def Outcome.Explained : Outcome → Prop
  | .failed (.rejected _) | .failed (.fault (.arena (.outOfMemory ..))) => True
  | .failed _ => False
  | _ => True

theorem Outcome.RanOut.explained {outcome : Outcome} (h : outcome.RanOut) : outcome.Explained := by
  obtain ⟨requested, free, -, rfl⟩ := h
  trivial

theorem explained_complete (p : Parse) (t : Tree) : (p.complete t).Explained := by
  rw [complete]
  split
  · trivial
  · split <;> trivial

theorem explained_begin (p next : Parse) (length : Nat) : (p.begin l length next).Explained := by
  rw [begin]
  cases hshortage : l.shortage p.frames p.used length with
  | none => trivial
  | some why => exact (shortage_ranOut hshortage).explained

theorem explained_accept (p : Parse) (token : Token) : (p.accept l token).Explained := by
  cases token with
  | comment => trivial
  | close =>
      cases hlists : p.lists with
      | nil =>
          rw [accept_close_nil l hlists]
          trivial
      | cons o outer =>
          rw [accept_close_cons l hlists]
          exact explained_complete _ _
  | list sigil =>
      rw [accept]
      split
      · trivial
      · exact explained_begin ..
  | symbol sigil quoted => exact explained_begin ..
  | integer => exact explained_begin ..

/-- One turn fails for one of the two reasons. -/
theorem explained_turn (p : Parse) : (p.turn l).Explained := by
  rw [turn]
  split
  · rw [commentTurn]
    rcases scanComment 0 p.ahead with ⟨taken, _ | _⟩ <;> trivial
  · split
    · rw [tokenTurn]
      generalize scanLead (levelOf p.lists) 0 p.ahead = scan
      obtain ⟨taken, lead⟩ := scan
      cases lead with
      | starved | rejected => trivial
      | accepted token back => exact explained_accept _ token
    · rw [symbolTurn, afterSymbol]
      split
      · trivial
      · trivial
      · trivial
      · exact explained_complete _ _
    · rw [integerTurn, afterInteger]
      split
      · trivial
      · trivial
      · exact explained_complete _ _

/-- A read fails for one of the two reasons. -/
theorem explained_read (hvalid : p.Valid l) : (p.read l).Explained := by
  induction p, hvalid using read_induction with
  | step p hvalid ih =>
      rw [read_eq hvalid]
      have hexplained := explained_turn (l := l) p
      cases hturn : p.turn l with
      | again q => exact ih q (valid_of_again hvalid hturn) hturn
      | starved kept q => trivial
      | done t q => trivial
      | failed why =>
          rw [hturn] at hexplained
          exact hexplained

end Parse

end FlatLisp
