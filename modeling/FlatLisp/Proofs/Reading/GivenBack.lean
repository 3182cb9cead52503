/-
Module: FlatLisp.Proofs.Reading.GivenBack
Purpose: How many bytes a turn gives back. It is two at most for a token, and one at most where a value
  is complete, unless all bytes that it takes had been given back before.
Main exports: Reading.Inert, Reading.Spares, Reading.spares_turn
-/
import FlatLisp.Proofs.Reading.Tally

namespace FlatLisp

namespace Reading

open Source (ofBytes)

/-! ### What scans give back -/

/-- At most two bytes are given back for a token. -/
theorem scanLead_back (level : Int) (source : Source) {token : Token} {back : List UInt8} :
    ∀ taken, scanLead level 0 source = (taken, .accepted token back) →
      taken ≤ source.length ∧ back.length ≤ 2 := by
  intro taken h
  obtain ⟨bytes, tail, rfl, htail⟩ := source.exists_split
  rcases scanLead_ofBytes level 0 bytes with
    ⟨count, lead, ⟨-, hle, hlead⟩, hsettled⟩ | ⟨blanks, run, -, -, -, hstall⟩
  · rw [hsettled] at h
    injection h with htaken hlead'
    subst hlead'
    rw [List.length_append, Source.length_ofBytes]
    exact ⟨by omega, hlead.1⟩
  · rw [hstall tail htail] at h
    injection h with _ hlead
    contradiction

/-- One byte at most ends a symbol and is no part of it. -/
theorem scanSymbol_back (quoted escaped : Bool) (length room : Nat) (source : Source)
    {back : List UInt8} (h : (scanSymbol quoted escaped length room source).ending = .closed back) :
    back.length ≤ 1 := by
  fun_induction scanSymbol quoted escaped length room source with
  | case1 | case2 | case6 | case7 => simp [SymbolRun.stop] at h
  | case3 | case5 =>
      simp only [SymbolRun.stop, SymbolRun.Ending.closed.injEq] at h
      subst h
      simp
  | case4 _ _ _ _ _ _ _ ih => exact ih h
  | case8 _ _ _ _ _ _ _ _ _ ih => exact ih h

/-! ### Parts of a read -/

variable {α β : Type} {s t : Reading} {taken : Nat} {back : List UInt8}

/-- Where the part of a read succeeds, it leaves the input alone. -/
def Inert (job : ReadM α) : Prop := ∀ s x t, job s = .ok x t → SameInput s t

theorem Still.inert {job : ReadM α} (h : Still job) : Inert job := by
  intro s x t hresult
  have hjob := h s
  rwa [hresult] at hjob

theorem bind_eq_ok {ε σ : Type} {job : EStateM ε σ α} {next : α → EStateM ε σ β} {s u : σ} {y : β}
    (h : (job >>= next) s = .ok y u) : ∃ x t, job s = .ok x t ∧ next x t = .ok y u := by
  cases hjob : job s with
  | ok x t => exact ⟨x, t, rfl, (bind_ok hjob).symm.trans h⟩
  | error e t =>
      rw [bind_error hjob] at h
      contradiction

theorem Inert.bind {job : ReadM α} {next : α → ReadM β} (h : Inert job)
    (hnext : ∀ x, Inert (next x)) : Inert (job >>= next) := by
  intro s y u hresult
  obtain ⟨x, t, hjob, hrest⟩ := bind_eq_ok hresult
  exact (h s x t hjob).trans (hnext x t y u hrest)

theorem inert_reject (cause : Rejection.Cause) (found : Option UInt8) :
    Inert (reject cause found : ReadM α) := by
  intro s x t h
  contradiction

theorem inert_modifyReader {change : Reader → Reader} {x : α}
    (h : ∀ r, (change r).pushback = r.pushback ∧ (change r).count = r.count) :
    Inert (modifyReader change >>= fun _ => pure x) :=
  (still_modifyReader h).inert.bind fun _ => (still_pure x).inert

theorem inert_complete (offset : Nat) (f : Frame) : Inert (complete offset f) := by
  refine (still_arena _).inert.bind fun _ => ?_
  split
  · exact inert_modifyReader fun _ => ⟨rfl, rfl⟩
  · refine (still_look _).inert.bind fun around => ?_
    split
    · exact (still_throw _).inert
    · refine (still_cell _).inert.bind fun _ => (still_look _).inert.bind fun h => ?_
      split
      · split
        · exact inert_reject _ _
        · exact (still_cell _).inert.bind fun _ => (still_pure _).inert
      · exact (still_throw _).inert

/-- A turn gives back at most `cap` bytes, unless it takes none off the source or runs out of them. -/
def Spares (cap : Turn → Nat) (s : Reading) (job : ReadM Turn) : Prop :=
  ∀ x t, job s = .ok x t → x = .starved ∨ t.source = s.source ∨ t.reader.pushback.length ≤ cap x

variable {cap : Turn → Nat}

theorem Still.spares {job : ReadM α} {next : α → ReadM Turn} (h : Still job)
    (hnext : ∀ x t, t.ahead = s.ahead → Spares cap t (next x)) : Spares cap s (job >>= next) := by
  intro y u hresult
  obtain ⟨x, t, hjob, hrest⟩ := bind_eq_ok hresult
  have hsame := h.inert s x t hjob
  rw [← hsame.source]
  exact hnext x t hsame.ahead y u hrest

theorem spares_throw (why : ReadError) : Spares cap s (throw why) := by
  intro x t h
  contradiction

/-- What is given back is all that can be read again, if bytes are taken off the source. -/
theorem spares_consume {next : ReadM Turn} (hnext : Inert next)
    (hback : ∀ s x t, next s = .ok x t → back.length ≤ cap x) :
    Spares cap s (consume taken back >>= fun _ => next) := by
  intro x u hresult
  obtain ⟨_, t, hconsume, hrest⟩ := bind_eq_ok hresult
  have hsame := hnext t x u hrest
  have hle := hback t x u hrest
  obtain ⟨r, source, a⟩ := s
  rw [consume] at hconsume
  split at hconsume
  · injection hconsume with _ ht
    subst ht
    rw [hsame.source, hsame.pushback]
    dsimp only
    by_cases htaken : taken ≤ r.pushback.length
    · rw [Nat.sub_eq_zero_of_le htaken]
      exact .inr (.inl rfl)
    · rw [List.drop_eq_nil_of_le (Nat.le_of_not_le htaken), List.append_nil]
      exact .inr (.inr hle)
  · contradiction

/-- The part of a read ends where the bytes run out. -/
def Starves (job : ReadM Turn) : Prop := ∀ s x t, job s = .ok x t → x = .starved

theorem starves_pure : Starves (pure .starved) := by
  intro s x t hresult
  injection hresult with hx _
  exact hx.symm

theorem starves_bind {job : ReadM α} {next : α → ReadM Turn} (h : ∀ x, Starves (next x)) :
    Starves (job >>= next) := by
  intro s y u hresult
  obtain ⟨x, t, -, hrest⟩ := bind_eq_ok hresult
  exact h x t y u hrest

theorem Starves.spares {job : ReadM Turn} (h : Starves job) : Spares cap s job :=
  fun x t hresult => .inl (h s x t hresult)

/-- How many bytes a turn may give back: for a token two, and after a value one. -/
def Turn.returned (inComment : Bool) : Turn → Nat
  | .done _ => 1
  | _ => if inComment then 0 else 2

theorem Turn.one_le_returned (x : Turn) : 1 ≤ x.returned false := by
  cases x with
  | again | starved => exact Nat.le_succ 1
  | done place => exact Nat.le_refl 1

theorem inert_accept (focus : Focus) (token : Token) : Inert (accept focus token) := by
  cases token with
  | comment => exact inert_modifyReader fun _ => ⟨rfl, rfl⟩
  | close =>
      rw [accept]
      split
      · exact inert_complete _ _
      · exact inert_reject _ _
  | list sigil =>
      refine (still_get fun s => still_pure s).inert.bind fun s => ?_
      split
      · exact inert_reject _ _
      · exact (still_begin _ _ _ _).inert.bind fun _ => (still_pure _).inert
  | symbol sigil quoted =>
      exact (still_begin _ _ _ _).inert.bind fun _ => still_reserveSymbol.inert.bind fun _ =>
        (still_pure _).inert
  | integer => exact (still_begin _ _ _ _).inert.bind fun _ => (still_pure _).inert

/-- A token that is no end of a list completes nothing. -/
theorem again_of_accept {focus : Focus} {token : Token} (htoken : token ≠ .close) {x : Turn}
    (h : accept focus token s = .ok x t) : x = .again := by
  have hpure : ∀ {s t : Reading}, (pure .again : ReadM Turn) s = .ok x t → x = .again := by
    intro s t hresult
    injection hresult with hx _
    exact hx.symm
  cases token with
  | close => exact (htoken rfl).elim
  | comment =>
      obtain ⟨_, _, -, hrest⟩ := bind_eq_ok h
      exact hpure hrest
  | list sigil =>
      obtain ⟨_, _, -, hrest⟩ := bind_eq_ok h
      split at hrest
      · contradiction
      · obtain ⟨_, _, -, hlast⟩ := bind_eq_ok hrest
        exact hpure hlast
  | symbol sigil quoted =>
      obtain ⟨_, _, -, hrest⟩ := bind_eq_ok h
      obtain ⟨_, _, -, hlast⟩ := bind_eq_ok hrest
      exact hpure hlast
  | integer =>
      obtain ⟨_, _, -, hrest⟩ := bind_eq_ok h
      exact hpure hrest

/-! ### Turns -/

theorem spares_commentTurn (cap : Turn → Nat) (s : Reading) : Spares cap s commentTurn := by
  refine Still.spares (still_get fun s => still_pure s) fun s' t _ => ?_
  split
  · exact spares_consume (inert_modifyReader fun _ => ⟨rfl, rfl⟩) fun _ _ _ _ => Nat.zero_le _
  · exact (starves_bind fun _ => starves_pure).spares

theorem spares_tokenTurn (focus : Focus) (s : Reading) :
    Spares (Turn.returned false) s (tokenTurn focus) := by
  intro x u hresult
  have hbegins := scanLead_begins focus.level 0 s.ahead
  have hback := @scanLead_back focus.level s.ahead
  rw [tokenTurn, bind_ok (get_ok s)] at hresult
  generalize scanLead focus.level 0 s.ahead = scan at hresult hbegins hback
  obtain ⟨taken, lead⟩ := scan
  cases lead with
  | starved run => exact (starves_bind fun _ => starves_pure).spares x u hresult
  | rejected cause found =>
      obtain ⟨_, _, -, hrest⟩ := bind_eq_ok hresult
      contradiction
  | accepted token back =>
      refine spares_consume (inert_accept focus token) (fun s x t haccept => ?_) x u hresult
      by_cases htoken : token = .close
      · subst htoken
        rw [show back = [] from hbegins]
        exact Nat.zero_le _
      · rw [again_of_accept htoken haccept]
        exact (hback taken rfl).2

theorem spares_afterSymbol (offset : Nat) (f : Frame) (sigil : Sigil) (quoted : Bool) (length : Nat)
    {run : SymbolRun} (hback : ∀ back, run.ending = .closed back → back.length ≤ 1) :
    Spares (Turn.returned false) s (afterSymbol offset f sigil quoted length run) := by
  obtain ⟨chars, taken, escaped, ending⟩ := run
  cases ending with
  | starved =>
      exact (starves_bind fun _ => starves_bind fun _ => starves_bind fun _ => starves_pure).spares
  | tooLong found => exact spares_consume (inert_reject _ _) fun _ _ _ _ => Nat.zero_le _
  | full =>
      exact spares_consume (still_get fun _ => still_throw _).inert fun _ _ _ _ => Nat.zero_le _
  | closed back =>
      refine spares_consume ?_ fun _ x _ _ => Nat.le_trans (hback back rfl) x.one_le_returned
      exact (still_settleSymbol _ _).inert.bind fun _ => (still_look _).inert.bind fun _ =>
        (still_cell _).inert.bind fun _ => inert_complete _ _

theorem spares_symbolTurn (offset : Nat) (f : Frame) (s : Reading) :
    Spares (Turn.returned false) s (symbolTurn offset f) := by
  refine (still_look _).spares fun h t _ => ?_
  split
  · refine Still.spares (still_get fun s => still_pure s) fun s' t _ => ?_
    dsimp only
    split
    · refine (still_arena _).spares fun _ t _ => ?_
      exact spares_afterSymbol offset f _ _ _ fun _ => scanSymbol_back _ _ _ _ _
    · exact spares_afterSymbol offset f _ _ _ fun _ => scanSymbol_back _ _ _ _ _
  · exact spares_throw _

theorem spares_integerTurn (offset : Nat) (f : Frame) (s : Reading) :
    Spares (Turn.returned false) s (integerTurn offset f) := by
  refine (still_look _).spares fun h t _ => ?_
  split
  · refine Still.spares (still_get fun s => still_pure s) fun s' t _ => ?_
    dsimp only
    split
    · exact (starves_bind fun _ => starves_bind fun _ => starves_bind fun _ => starves_pure).spares
    · exact spares_consume (inert_reject _ _) fun _ _ _ _ => Nat.zero_le _
    · refine spares_consume ?_ fun _ x _ _ => x.one_le_returned
      exact (still_cell _).inert.bind fun _ => inert_complete _ _
  · exact spares_throw _

theorem spares_turn (s : Reading) : Spares (Turn.returned s.reader.inComment) s turn := by
  intro x u hresult
  rw [turn, bind_ok (get_ok s)] at hresult
  split at hresult
  · exact spares_commentTurn _ s x u hresult
  · rename_i hcomment
    rw [Bool.not_eq_true] at hcomment
    rw [hcomment]
    refine Still.spares (still_get fun s => still_pure s) (fun s' t _ => ?_) x u hresult
    refine (still_look _).spares fun focus t _ => ?_
    split
    · split
      · exact spares_symbolTurn _ _ _
      · exact spares_integerTurn _ _ _
      · exact spares_tokenTurn _ _
    · exact spares_tokenTurn _ _

end Reading

end FlatLisp
