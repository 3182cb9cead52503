/-
Module: FlatLisp.Proofs.Console.Ledger
Purpose: What becomes of the store of a session. Whatever state the session is in, reading, writing
  and loading leave the store alone; it is changed by a value that is saved, of which the block is
  shown, and by an allocated block that is given back.
Main exports: Session.Keeps, Session.Stores, Session.stores_enter
-/
import FlatLisp.Proofs.Console.Entering
import FlatLisp.Proofs.Store.Coalesced

namespace FlatLisp

open Source (ofBytes)

namespace Backed

/-- Some bytes have been saved, or the store is as it was. -/
inductive Saves (s : Store) : EStateM.Result Fault Backed Nat → Prop where
  | saved {bytes : List UInt8} {block : Nat} {a : Arena} {s' : Store}
      (hsave : s.save bytes = .ok block s') : Saves s (.ok block ⟨a, s'⟩)
  | refused {e : Fault} {a : Arena} : Saves s (.error e ⟨a, s⟩)

theorem persist_saves (place : Place) (a : Arena) (s : Store) : Saves s (persist place ⟨a, s⟩) := by
  unfold persist
  cases place.space with
  | store => exact .refused
  | arena =>
      dsimp only
      rw [get_bind]
      cases hlength : Cell.treeLength s.external place a with
      | error e a' =>
          rw [bind_error (backed_cell_error hlength)]
          exact .refused
      | ok length a' =>
          rw [bind_ok (backed_cell_ok hlength)]
          cases hbytes : Cell.consult (Cell.fetch · s.external place length) a' with
          | error e a'' =>
              rw [bind_error (backed_cell_error hbytes)]
              exact .refused
          | ok bytes a'' =>
              rw [bind_ok (backed_cell_ok hbytes)]
              cases hsave : s.save bytes with
              | error why s' =>
                  obtain rfl := Store.save_error hsave
                  rw [backed_store_error hsave]
                  exact .refused
              | ok block s' =>
                  rw [backed_store_ok hsave]
                  exact .saved hsave

end Backed

namespace Store

variable {s s' : Store} {address : Nat}

/-- What is given back was allocated. -/
theorem mem_of_free (h : s.free address = .ok () s') : address ∈ allocated s.blocks := by
  rw [free, find] at h
  cases hfind : s.blocks.find? fun b => b.address == address && !b.free with
  | none =>
      rw [hfind] at h
      contradiction
  | some b =>
      have hb := List.find?_some hfind
      simp only [Bool.and_eq_true, beq_iff_eq, Bool.not_eq_true'] at hb
      exact mem_allocated.2 ⟨b, List.mem_of_find?_eq_some hfind, hb.1, hb.2⟩

end Store

namespace Session

/-! ### What leaves the store alone -/

section Keeps

variable {α β : Type} {job : SessionM α} {next : α → SessionM β}

/-- The job leaves the store as it is. -/
def Keeps (job : SessionM α) : Prop := ∀ s, (job s).2.store = s.store

theorem keeps_pure (x : α) : Keeps (pure x : SessionM α) := fun _ => rfl

theorem Keeps.bind (h : Keeps job) (hnext : ∀ x, Keeps (next x)) : Keeps (job >>= next) :=
  fun s => (hnext _ _).trans (h s)

theorem keeps_get : Keeps (get : SessionM Session) := fun _ => rfl

theorem keeps_modify {change : Session → Session} (h : ∀ s, (change s).store = s.store) :
    Keeps (modify change : SessionM Unit) := h

theorem keeps_out (text : String) : Keeps (out text) := fun _ => rfl

theorem keeps_err (text : String) : Keeps (err text) := fun _ => rfl

theorem keeps_withArena {ε : Type} (job : EStateM ε Arena α) : Keeps (withArena job) := by
  intro s
  unfold withArena
  cases job s.arena <;> rfl

theorem keeps_release : Keeps release :=
  keeps_get.bind fun s => (keeps_withArena s.guard.release).bind fun _ => keeps_pure _

theorem keeps_echo (place : Place) : Keeps (echo place) :=
  keeps_get.bind fun _ => (keeps_withArena _).bind fun
    | .ok _ => keeps_out _
    | .error _ => keeps_err _

theorem keeps_readGuarded : Keeps readGuarded := fun _ => rfl

theorem keeps_drainValues (fuel : Nat) : Keeps (drainValues fuel) := by
  induction fuel with
  | zero => exact keeps_pure true
  | succ fuel ih =>
      refine keeps_readGuarded.bind fun outcome => ?_
      cases outcome with
      | value place => exact (keeps_echo place).bind fun _ => keeps_release.bind fun _ => ih
      | pending => exact keeps_pure true
      | rejected why =>
          exact (keeps_err _).bind fun _ => (keeps_modify fun _ => rfl).bind fun _ =>
            keeps_pure false
      | aborted why =>
          exact (keeps_err _).bind fun _ => (keeps_modify fun _ => rfl).bind fun _ =>
            keeps_pure false

theorem keeps_drain : Keeps drain := keeps_get.bind fun _ => keeps_drainValues _

theorem keeps_missing : Keeps missing := by
  intro s
  unfold missing
  split
  · rfl
  · split <;> rfl

theorem keeps_readLine (line : String) : Keeps (readLine line) := by
  refine Keeps.bind ?_ fun _ => keeps_drain.bind fun _ => keeps_pure _
  exact keeps_modify fun _ => rfl

theorem keeps_abandonInput : Keeps abandonInput := by
  refine Keeps.bind ?_ fun _ => keeps_release
  exact keeps_modify fun _ => rfl

theorem keeps_finishFile (path : String) : Keeps (finishFile path) :=
  keeps_missing.bind fun
    | some _ => (keeps_err _).bind fun _ => keeps_abandonInput
    | none => keeps_pure _

theorem keeps_loadBlock (block : Nat) : Keeps (loadBlock block) := by
  refine keeps_get.bind fun s => ?_
  split
  · exact keeps_out _
  · refine (keeps_withArena _).bind fun result => ?_
    cases result with
    | ok place => exact (keeps_echo place).bind fun _ => keeps_release
    | error why => exact (keeps_err _).bind fun _ => keeps_release

end Keeps

/-! ### What a line does to the store -/

/-- What handling a line of input may do to the store: nothing; or, between values, the line
is a command to save a value, and the block that it was saved in is shown; or it is a command to
give a block back that is allocated. -/
inductive Stores (line : String) (s : Session) : Session → Prop where
  | kept {t : Session} (hkept : t.store = s.store) : Stores line s t
  | saved {t : Session} {text : String} {bytes : List UInt8} {block : Nat} {store store' : Store}
      (hidle : s.reader.isIdle = true)
      (hcommand : Command.ofLine? line = some (.save text))
      (hstore : s.store = some store) (hsave : store.save bytes = .ok block store')
      (hchanged : t.store = some store')
      (hshown : t.written = .out s!"Saved at {Text.Hex.address block}" :: s.written) :
      Stores line s t
  | freed {t : Session} {block : Nat} {store store' : Store} (hidle : s.reader.isIdle = true)
      (hcommand : Command.ofLine? line = some (.free (some block)))
      (hstore : s.store = some store) (hallocated : block ∈ Store.allocated store.blocks)
      (hfree : store.free block = .ok () store') (hchanged : t.store = some store') :
      Stores line s t

variable {s : Session}

/-- What becomes of the store when the text of a value is taken to be saved. -/
theorem stores_taken {line : String} (text : String) {store : Store}
    (hstore : s.store = some store) (hidle : s.reader.isIdle = true)
    (hcommand : Command.ofLine? line = some (.save text)) :
    Stores line s (taken text store s) := by
  unfold taken
  cases Reading.readToEnd
    ⟨Reader.ofDepth s.settings.maxDepth, ofBytes (Text.Utf8.encode text), s.arena⟩ with
  | error why r => exact .kept rfl
  | ok status r =>
      cases status with
      | pending => exact .kept rfl
      | done place =>
          dsimp only
          rw [persisted]
          have hsaves := Backed.persist_saves place r.arena store
          generalize Backed.persist place ⟨r.arena, store⟩ = result at hsaves
          cases hsaves with
          | refused => exact .kept hstore.symm
          | saved hsave => exact .saved hidle hcommand hstore hsave rfl rfl

theorem Stores.released {line : String} {t : Session} (h : Stores line s t) :
    Stores line s (release t).2 := by
  have hstore : (release t).2.store = t.store := keeps_release t
  have hwritten : (release t).2.written = t.written := by rw [release_eq]
  cases h with
  | kept hkept => exact .kept (hstore.trans hkept)
  | saved hidle hcommand hstore' hsave hchanged hshown =>
      exact .saved hidle hcommand hstore' hsave (hstore.trans hchanged) (hwritten.trans hshown)
  | freed hidle hcommand hstore' hallocated hfree hchanged =>
      exact .freed hidle hcommand hstore' hallocated hfree (hstore.trans hchanged)

theorem stores_text {line : String}
    (h : s.reader.isIdle = false ∨ Command.ofLine? line = none) :
    Stores line s (enter line s).2 := by
  have hdrained : (drain (s.given line)).2.store = s.store := keeps_drain _
  have hmissing := keeps_missing (drain (s.given line)).2
  rw [enter_text h]
  refine .kept ?_
  rw [← hdrained, hinted]
  split
  · generalize missing (drain (s.given line)).2 = result at hmissing
    obtain ⟨text, t⟩ := result
    cases text <;> exact hmissing
  · rfl

theorem stores_obey {line : String} {command : Command} (hidle : s.reader.isIdle = true)
    (hcommand : Command.ofLine? line = some command) :
    Stores line s (obey command s).2 := by
  cases command with
  | quit => exact .kept rfl
  | stats =>
      change Stores line s (showStats s).2
      rw [showStats_eq]
      exact .kept rfl
  | blocks =>
      change Stores line s (listBlocks s).2
      rw [listBlocks_eq]
      exact .kept rfl
  | help => exact .kept rfl
  | load block =>
      cases block with
      | none => exact .kept rfl
      | some block => exact .kept (keeps_loadBlock block s)
  | save text =>
      change Stores line s (saveText text s).2
      cases hstore : s.store with
      | none =>
          rw [saveText_none text hstore]
          exact .kept rfl
      | some store =>
          rw [saveText_some text hstore]
          exact (stores_taken text hstore hidle hcommand).released
  | free block =>
      cases block with
      | none => exact .kept rfl
      | some block =>
          change Stores line s (freeBlock block s).2
          cases hstore : s.store with
          | none =>
              rw [freeBlock_none block hstore]
              exact .kept rfl
          | some store =>
              cases hfree : store.free block with
              | error why store' =>
                  rw [freeBlock_error block hstore hfree]
                  exact .kept rfl
              | ok _ store' =>
                  rw [freeBlock_ok block hstore hfree]
                  exact .freed hidle hcommand hstore (Store.mem_of_free hfree) hfree rfl

/-- Whatever line is given, in whatever state, the store is changed by saving or freeing only. -/
theorem stores_enter (line : String) (s : Session) : Stores line s (enter line s).2 := by
  cases hidle : s.reader.isIdle with
  | false => exact stores_text (.inl hidle)
  | true =>
      cases hcommand : Command.ofLine? line with
      | none => exact stores_text (.inr hcommand)
      | some command =>
          rw [enter_command hidle hcommand]
          exact stores_obey hidle hcommand

end Session

end FlatLisp
