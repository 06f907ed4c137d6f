import CodeGraft.Proofs.OnMachine
import CodeGraft.Proofs.Places

/-!
# What routines touch

A routine changes a disk by its writes and removals, and by the folders that it makes. Where all
writes and removals lead to some places, nothing else changes but for new folders. A world that
grants changes lets the folders of a path be made.
-/

namespace CodeGraft

open Text Dialogue

def Call.Touches (current : Place) (touched : Place → Prop) : Call → Prop
  | .write path _ => touched (Disk.destination current path)
  | .remove path => touched (Disk.destination current path)
  | _ => True

namespace World

open Disk

variable {touched : Place → Prop} {w w' : World}

theorem evolves_change (w : World) (path : Text) {answer : Except DiskRefusal Disk}
    (h : ∀ disk, answer = .ok disk → Evolves touched w.disk disk) :
    Evolves touched w.disk (w.change path answer).2.disk := by
  unfold change
  split
  next disk hask => exact h disk (ask_eq_ok_iff.mp hask).2
  next => exact .refl _ _

theorem evolves_host {c : Call} (h : c.Touches w.disk.current touched) :
    Evolves touched w.disk (host c w).2.disk := by
  cases c with
  | write path content =>
    refine evolves_change w path fun disk hdisk => ?_
    exact (evolves_of_write hdisk).mono fun _ hplace => hplace ▸ h
  | makeFolder path =>
    refine evolves_change w path fun disk hdisk => ?_
    exact (evolves_of_makeFolder hdisk).mono fun _ hplace => hplace.elim
  | remove path =>
    refine evolves_change w path fun disk hdisk => ?_
    exact (evolves_of_remove hdisk).mono fun _ hplace => hplace ▸ h
  | _ => exact .refl _ _

theorem Falters.evolves {c : Call} {r : Answer c} (hc : c.Touches w.disk.current touched)
    (h : Falters c w r w') : Evolves touched w.disk w'.disk := by
  cases h with
  | answers now h =>
    have hevolves : Evolves touched { w with now }.disk (host c { w with now }).2.disk :=
      evolves_host hc
    rw [h] at hevolves
    exact hevolves
  | unread => exact .refl _ _
  | unmade => exact .refl _ _
  | unremoved => exact .refl _ _
  | unwritten => exact .refl _ _
  | torn _ _ _ _ _ _ hwrite => exact (evolves_of_write hwrite).mono fun _ hplace => hplace ▸ hc

theorem evolves_of_goes {α : Type} {step : Step Answer World} [Tame step] {d : Routine α} {a : α}
    (hd : d.Asks (Call.Touches w.disk.current touched)) (h : d.Goes step w a w') :
    Evolves touched w.disk w'.disk := by
  refine h.invariant (I := fun u => Evolves touched w.disk u.disk) ?_ hd (.refl _ _)
  intro c u r v hc hstep hevolves
  rw [← hevolves.current_eq] at hc
  exact hevolves.trans ((Tame.falters hstep).evolves hc)

/-- Whether a world grants what a call asks to be changed. A folder that is there already is as good
as one that is made. -/
def grants : Call → World → Bool
  | .write path content, w => (host (.write path content) w).1.isOk
  | .remove path, w => (host (.remove path) w).1.isOk
  | .makeFolder path, w =>
    match (host (.makeFolder path) w).1 with
    | .ok () => true
    | .error (.disk _) => w.disk.isFolder path
    | .error _ => false
  | _, _ => true

/-- The steps of a machine whose clock moves, and which grants all changes. -/
abbrev granting : Step Answer World := turns grants

theorem isOk_change {w : World} {path : Text} {answer : Except DiskRefusal Disk} :
    (w.change path answer).1.isOk = (!Path.holdsNull path && answer.isOk) := by
  unfold change ask
  cases Path.holdsNull path <;> cases answer <;> rfl

end World

section

variable {w w' : World}

theorem touches_makeLastFolder (current : Place) (touched : Place → Prop) (path : Text) :
    (Machine.makeLastFolder path).run.Asks (Call.Touches current touched) := by
  refine asks_tryCatch_run (asks_question trivial) fun e => ?_
  split
  · refine asks_bind_run (asks_question trivial) fun found => ?_
    split <;> exact trivial
  · exact trivial

theorem touches_makeFoldersUpTo (current : Place) (touched : Place → Prop) (bound : Nat)
    (path : Text) : (Machine.makeFoldersUpTo bound path).run.Asks (Call.Touches current touched) := by
  induction bound generalizing path with
  | zero => exact trivial
  | succ bound ih =>
    rw [Machine.makeFoldersUpTo]
    dsimp only
    split
    · exact touches_makeLastFolder ..
    · refine asks_bind_run (asks_question trivial) fun stands => ?_
      split
      · exact touches_makeLastFolder ..
      · refine asks_bind_run (asks_tryCatch_run (ih _) fun e => ?_) fun _ => ?_
        · split <;> exact trivial
        · split
          · exact touches_makeLastFolder ..
          · exact trivial

theorem evolves_of_goes_makeFolders {step : Step Answer World} [World.Tame step] {path : Text}
    {r : Except Fault Unit} (h : (Machine.makeFolders path).run.Goes step w r w') :
    Disk.Evolves (fun _ => False) w.disk w'.disk :=
  World.evolves_of_goes (touches_makeFoldersUpTo ..) h

theorem granted_makeLastFolder {path : Text} {r : Except Fault Unit}
    (h : (Machine.makeLastFolder path).run.Goes World.granting w r w') :
    r = .ok () := by
  rcases goes_tryCatch_run_iff.mp h with ⟨u, -, rfl⟩ | ⟨e, u, hmake, hrest⟩
  · rfl
  obtain ⟨hgrants, hhost⟩ := (goes_call_iff rfl).mp hmake
  obtain rfl : u = w := World.eq_of_change_error hhost
  simp only [World.grants, hhost] at hgrants
  cases e with
  | disk refusal =>
    obtain ⟨stands, v, hstands, hrest⟩ := goes_lift_bind_run_iff.mp hrest
    obtain ⟨rfl, -⟩ : u.disk.isFolder path = stands ∧ u = v := by
      simpa [World.host] using ((goes_call_iff rfl).mp hstands).2
    rw [if_neg (by simp [hgrants])] at hrest
    exact (goes_pure_run_iff.mp hrest).1
  | _ => cases hgrants

theorem granted_makeFoldersUpTo {bound : Nat} {path : Text} {r : Except Fault Unit}
    (h : (Machine.makeFoldersUpTo bound path).run.Goes World.granting w r w') :
    r = .ok () := by
  induction bound generalizing path r w w' with
  | zero => exact (goes_pure_run_iff.mp h).1
  | succ bound ih =>
    rw [Machine.makeFoldersUpTo] at h
    dsimp only at h
    split at h
    · exact granted_makeLastFolder h
    · obtain ⟨stands, u, -, h⟩ := goes_lift_bind_run_iff.mp h
      split at h
      · exact granted_makeLastFolder h
      rcases goes_bind_run_iff.mp h with ⟨e, hparent, -⟩ | ⟨⟨⟩, v, -, h⟩
      · rcases goes_tryCatch_run_iff.mp hparent with ⟨a, -, heq⟩ | ⟨e', u', hparent, -⟩
        · cases heq
        · cases ih hparent
      · split at h
        · exact granted_makeLastFolder h
        · exact (goes_pure_run_iff.mp h).1

theorem granted_makeFolders {path : Text} {r : Except Fault Unit}
    (h : (Machine.makeFolders path).run.Goes World.granting w r w') :
    r = .ok () := granted_makeFoldersUpTo h

theorem granted_write {path : Text} {content : Bytes} {r : Except Fault Unit}
    (h : (Machine.write path content).run.Goes World.granting w r w') :
    r = .ok () := by
  obtain ⟨hgrants, now, hhost, -⟩ := goes_question_iff.mp h
  have hanswer : ({ w with now }.change path (w.disk.write now path content)).1 = r :=
    congrArg Prod.fst hhost
  have hok : r.isOk = true := by
    rw [← hanswer, World.isOk_change, Disk.isOk_write _ _ w.now, ← World.isOk_change]
    exact hgrants
  cases r with
  | ok => rfl
  | error e => cases hok

end

end CodeGraft
