/-
Module: FlatLisp.Proofs.Reading.Barren
Purpose: Reading into any arena. Where the arena is locked no value can be begun: a reader that is
  between values skips blanks and comments there, and fails at the first value. So whatever the arena,
  turns and reads are those of a read in terms of trees.
Main exports: Arena.Barren, ReadError.Intact, Reading.Paired, Reading.Paired.leads_turn
-/
import FlatLisp.Proofs.Arena.Untouched
import FlatLisp.Proofs.Reading.Delivery
import FlatLisp.Proofs.Reading.Shortage

namespace FlatLisp

namespace Arena

/-- Nothing can be handed out at the forward cursor. -/
def Barren (a : Arena) : Prop := ∀ count, 0 < count → ∃ e, alloc .forward count a = .error e a

theorem barren_of_locked {a : Arena} (h : a.isLocked = true) : a.Barren := by
  obtain ⟨hold, hhold⟩ := Option.isSome_iff_exists.1 h
  exact fun count _ => ⟨_, bind_error (demandUnlocked_locked hhold)⟩

end Arena

/-- The input is no value, or the arena has refused a request; what is in the arena was found to be in
order. -/
def ReadError.Intact : ReadError → Prop
  | .rejected _ | .fault (.arena _) => True
  | _ => False

namespace Reading

open Source (ofBytes)

variable {l : Limits} {b : Arena} {p q : Parse} {s : Reading}

/-- The reader of `s` is that of the read `p`, with no value in progress, and none can be begun. -/
structure Unable (l : Limits) (p : Parse) (s : Reading) : Prop where
  inStep : InStep l p s
  barren : s.arena.Barren
  root : s.reader.root = 0
  lock : s.reader.lock = none
  stop : l.stop = some 0
  lists : p.lists = []
  leaf : p.leaf = none

/-- The state `s` is that of the read `p`, in whatever arena. -/
def Paired (l : Limits) (p : Parse) (s : Reading) : Prop :=
  (∃ b, LimitsOf l b ∧ Tracks l b p s) ∨ Unable l p s

theorem Paired.inStep (h : Paired l p s) : InStep l p s := by
  rcases h with ⟨b, -, htracks⟩ | hunable
  · exact htracks.inStep
  · exact hunable.inStep

/-- What a turn answers, and where it leads, is what the outcome of a turn in terms of trees says. -/
def Leads (l : Limits) (outcome : Parse.Outcome)
    (result : EStateM.Result ReadError Reading Turn) : Prop :=
  match outcome with
  | .again q => ∃ s, result = .ok .again s ∧ Paired l q s
  | .starved kept q => ∃ s, result = .ok .starved s ∧ Paired l q s ∧ s.reader.pushback = kept
  | .done _ q => ∃ place s, result = .ok (.done place) s ∧ Paired l q s
  | .failed _ => ∃ why s, result = .error why s ∧ why.Intact

theorem Follows.leads {outcome : Parse.Outcome} {result : EStateM.Result ReadError Reading Turn}
    (hl : LimitsOf l b) (hexplained : outcome.Explained) (h : Follows l b outcome result) :
    Leads l outcome result := by
  cases outcome with
  | again q =>
      obtain ⟨s, hresult, htracks⟩ := h
      exact ⟨s, hresult, .inl ⟨b, hl, htracks⟩⟩
  | starved kept q =>
      obtain ⟨s, hresult, htracks, hkept⟩ := h
      exact ⟨s, hresult, .inl ⟨b, hl, htracks⟩, hkept⟩
  | done t q =>
      obtain ⟨s, hresult, hfinished, htracks⟩ := h
      exact ⟨_, s, hresult, .inl ⟨s.arena, hfinished.limits hl, htracks⟩⟩
  | failed why =>
      obtain ⟨s, hresult, -⟩ := h
      refine ⟨why, s, hresult, ?_⟩
      cases why with
      | rejected why => trivial
      | fault why =>
          cases why with
          | arena e => trivial
          | _ => exact hexplained

/-! ### Turns where nothing can be begun -/

namespace Unable

/-- The state after bytes were taken. -/
theorem with_input {s' : Reading} (h : Unable l p s) (hstep : InStep l q s')
    (harena : s'.arena = s.arena) (hroot : s'.reader.root = s.reader.root)
    (hlock : s'.reader.lock = s.reader.lock) (hlists : q.lists = p.lists) (hleaf : q.leaf = p.leaf) :
    Unable l q s' where
  inStep := hstep
  barren := harena ▸ h.barren
  root := hroot.trans h.root
  lock := hlock.trans h.lock
  stop := h.stop
  lists := hlists.trans h.lists
  leaf := hleaf.trans h.leaf

theorem begin_failed (h : Unable l p s) (kind : Frame.Kind) (flags : UInt8) (parent : Nat)
    (header : Header) (next : Parse) (rest : Unit → ReadM Turn) :
    Leads l (p.begin l header.length next) ((begin kind flags parent header >>= rest) s) := by
  have hpos := header.length_pos
  have hshort : l.shortage p.frames p.used header.length = some (Limits.outOfMemory header.length 0) := by
    rw [Limits.shortage, h.stop]
    simp [Limits.free, hpos]
  obtain ⟨e, he⟩ := h.barren header.length hpos
  have hbegin : begin kind flags parent header s = .error (.fault (.arena e)) s :=
    bind_error (lift_arena_error he)
  rw [Parse.begin, hshort, bind_error hbegin]
  exact ⟨_, s, rfl, trivial⟩

theorem leads_accept (h : Unable l p s) (token : Token) :
    Leads l (p.accept l token) (accept ⟨none, 0, 0⟩ token s) := by
  cases token with
  | comment => exact ⟨_, rfl, .inr (h.with_input ⟨rfl, h.inStep.count, h.inStep.ahead,
      h.inStep.pushback, h.inStep.maxDepth⟩ rfl rfl rfl rfl rfl)⟩
  | close =>
      rw [Parse.accept_close_nil l h.lists]
      exact ⟨_, s, rfl, trivial⟩
  | list sigil =>
      rw [accept, Parse.accept, bind_ok (get_ok s), h.inStep.maxDepth, h.lists]
      by_cases hdepth : l.maxDepth ≤ 0
      · rw [if_pos hdepth, if_pos (show l.maxDepth ≤ List.length [] from hdepth)]
        exact ⟨_, s, rfl, trivial⟩
      · rw [if_neg hdepth, if_neg (show ¬ l.maxDepth ≤ List.length [] from hdepth)]
        exact h.begin_failed _ _ _ (.list 0 sigil false) _ _
  | symbol sigil quoted => exact h.begin_failed _ _ _ (.symbol 0 sigil quoted false 0) _ _
  | integer => exact h.begin_failed _ _ _ (.integer 0) _ _

theorem leads_commentTurn (h : Unable l p s) : Leads l p.commentTurn (commentTurn s) := by
  obtain ⟨bytes, tail, hahead, htail⟩ := p.ahead.exists_split
  rw [Parse.commentTurn, commentTurn, bind_ok (get_ok s), h.inStep.ahead, hahead]
  rcases scanComment_ofBytes 0 bytes with ⟨count, _, _, hscan⟩ | hscan
  · obtain ⟨hconsume, hnext⟩ := h.inStep.consume count [] (by simp) (by simp)
    rw [hscan, Nat.zero_add]
    dsimp only
    rw [bind_ok hconsume]
    exact ⟨_, rfl, .inr (h.with_input ⟨rfl, hnext.count, hnext.ahead, hnext.pushback,
      hnext.maxDepth⟩ rfl rfl rfl rfl rfl)⟩
  · obtain ⟨hstarve, hnext, hkept⟩ := h.inStep.starve [] hahead htail (by simp) (by simp)
    rw [hscan, Nat.zero_add, scanComment_of_stalls htail]
    dsimp only
    rw [bind_ok hstarve]
    exact ⟨_, rfl, .inr (h.with_input hnext rfl rfl rfl rfl rfl), hkept⟩

theorem leads_tokenTurn (h : Unable l p s) :
    Leads l (p.tokenTurn l) (tokenTurn ⟨none, 0, 0⟩ s) := by
  obtain ⟨bytes, tail, hahead, htail⟩ := p.ahead.exists_split
  rw [Parse.tokenTurn, tokenTurn, bind_ok (get_ok s), h.inStep.ahead, hahead, h.lists,
    show Parse.levelOf [] = 0 from rfl]
  rcases scanLead_ofBytes 0 0 bytes with
    ⟨count, lead, ⟨_, _, hlead⟩, hscan⟩ | ⟨blanks, run, rfl, hrun, _, hstall⟩
  · rw [hscan, Nat.zero_add]
    cases lead with
    | starved run => exact hlead.elim
    | accepted token back =>
        obtain ⟨hconsume, hnext⟩ := h.inStep.consume count back hlead.1 hlead.2
        dsimp only
        rw [bind_ok hconsume]
        exact leads_accept (h.with_input hnext rfl rfl rfl rfl rfl) token
    | rejected cause found =>
        obtain ⟨hconsume, hnext⟩ := h.inStep.consume count [] (by simp) (by simp)
        dsimp only
        rw [bind_ok hconsume]
        exact ⟨_, _, rfl, trivial⟩
  · obtain ⟨hstarve, hnext, hkept⟩ := h.inStep.starve run hahead htail hrun (by simp)
    rw [hstall tail htail, Nat.zero_add]
    dsimp only
    rw [bind_ok hstarve]
    exact ⟨_, rfl, .inr (h.with_input hnext rfl rfl rfl rfl rfl), hkept⟩

theorem leads_turn (h : Unable l p s) : Leads l (p.turn l) (turn s) := by
  have hcomment := h.inStep.inComment
  obtain ⟨r, source, a⟩ := s
  rw [turn, bind_ok (get_ok _)]
  cases hin : p.inComment with
  | true =>
      rw [Parse.turn_of_comment hin, if_pos (hcomment.trans hin)]
      exact h.leads_commentTurn
  | false =>
      have hreader : ¬ r.inComment = true := by
        rw [show r.inComment = p.inComment from hcomment, hin]
        exact Bool.false_ne_true
      have hfocus : r.focus a = .ok ⟨none, 0, 0⟩ := by
        rw [Reader.focus, show r.root = 0 from h.root]
        rfl
      rw [if_neg hreader, bind_ok (get_ok _)]
      dsimp only
      rw [bind_ok (look_ok hfocus), Parse.turn_of_token hin h.leaf]
      exact h.leads_tokenTurn

end Unable

/-! ### Turns and reads in any arena -/

/-- One turn does what it does in terms of trees. -/
theorem Paired.leads_turn (hvalid : p.Valid l) (h : Paired l p s) : Leads l (p.turn l) (turn s) := by
  rcases h with ⟨b, hl, htracks⟩ | hunable
  · exact (follows_turn hl hvalid htracks).leads hl (Parse.explained_turn p)
  · exact hunable.leads_turn

end Reading

end FlatLisp
