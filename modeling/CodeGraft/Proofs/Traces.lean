import CodeGraft.Apply.Request

/-!
# Dialogues by their exchanges

What a dialogue does shows in its exchanges alone, whoever replies. So a law about every host is
proved of the exchanges that a dialogue can have, and then brought to a run by `run_eq_iff`: a run is
a play of the dialogue together with a host that gives its replies.
-/

namespace CodeGraft

namespace Dialogue

variable {Q : Type} {R : Q → Type} {α β σ : Type}

/-- A dialogue can have the given exchanges, one after another, and then end with a result. -/
inductive Plays : Dialogue Q R α → List (Exchange R) → α → Prop
  | done (a : α) : Plays (done a) [] a
  | ask {q : Q} {go : R q → Dialogue Q R α} (r : R q) {xs : List (Exchange R)} {a : α} :
      Plays (go r) xs a → Plays (ask q go) (⟨q, r⟩ :: xs) a

/-- A host gives the replies of the exchanges, and they bring it from one state to another. -/
def Answers (host : Host R σ) : σ → List (Exchange R) → σ → Prop
  | s, [], t => s = t
  | s, x :: xs, t => (host x.1 s).1 = x.2 ∧ Answers host (host x.1 s).2 xs t

theorem plays_done_iff {a b : α} {xs : List (Exchange R)} :
    (done a : Dialogue Q R α).Plays xs b ↔ xs = [] ∧ b = a := by
  constructor
  · intro h
    cases h
    exact ⟨rfl, rfl⟩
  · rintro ⟨rfl, rfl⟩
    exact .done b

theorem plays_question_iff {q : Q} {r : R q} {xs : List (Exchange R)} :
    (question q : Dialogue Q R (R q)).Plays xs r ↔ xs = [⟨q, r⟩] := by
  constructor
  · intro h
    obtain - | ⟨r, h⟩ := h
    obtain ⟨rfl, rfl⟩ := plays_done_iff.mp h
    rfl
  · rintro rfl
    exact .ask r (.done r)

/-- A play of two dialogues in a row is a play of the first and then one of the second. -/
theorem plays_bind_iff {d : Dialogue Q R α} {f : α → Dialogue Q R β} {xs : List (Exchange R)}
    {b : β} : (d >>= f).Plays xs b ↔
      ∃ a ys zs, xs = ys ++ zs ∧ d.Plays ys a ∧ (f a).Plays zs b := by
  rw [bind_eq]
  constructor
  · intro h
    induction d generalizing xs with
    | done a => exact ⟨a, [], xs, rfl, .done a, h⟩
    | ask q go ih =>
      obtain - | ⟨r, h⟩ := h
      obtain ⟨a, ys, zs, rfl, hy, hz⟩ := ih r h
      exact ⟨a, ⟨q, r⟩ :: ys, zs, rfl, .ask r hy, hz⟩
  · rintro ⟨a, ys, zs, rfl, hy, hz⟩
    induction hy with
    | done a => exact hz
    | ask r _ ih => exact .ask r (ih hz)

theorem answers_append {host : Host R σ} {s t : σ} {xs ys : List (Exchange R)} :
    Answers host s (xs ++ ys) t ↔ ∃ u, Answers host s xs u ∧ Answers host u ys t := by
  induction xs generalizing s with
  | nil => simp [Answers]
  | cons x xs ih => simp [Answers, ih, and_assoc]

theorem Answers.keeps {host : Host R σ} {s t : σ} {xs : List (Exchange R)} {view : σ → β}
    (hkeeps : ∀ x ∈ xs, ∀ u, view (host x.1 u).2 = view u) (h : Answers host s xs t) :
    view t = view s := by
  induction xs generalizing s with
  | nil =>
    obtain rfl : s = t := h
    rfl
  | cons x xs ih =>
    obtain ⟨hx, hxs⟩ := List.forall_mem_cons.mp hkeeps
    exact (ih hxs h.2).trans (hx s)

theorem run_eq_iff {host : Host R σ} {d : Dialogue Q R α} {s t : σ} {a : α}
    {xs : List (Exchange R)} :
    run host d s = (a, t, xs) ↔ d.Plays xs a ∧ Answers host s xs t := by
  induction d generalizing s xs with
  | done b =>
    simp only [run_done, Prod.mk.injEq, plays_done_iff]
    constructor
    · rintro ⟨rfl, rfl, rfl⟩
      exact ⟨⟨rfl, rfl⟩, rfl⟩
    · rintro ⟨⟨rfl, rfl⟩, hs⟩
      exact ⟨rfl, hs, rfl⟩
  | ask q go ih =>
    simp only [run, Prod.mk.injEq]
    constructor
    · rintro ⟨ha, ht, rfl⟩
      obtain ⟨hplays, hanswers⟩ := (ih (host q s).1).mp (Prod.ext ha (Prod.ext ht rfl))
      exact ⟨.ask _ hplays, rfl, hanswers⟩
    · rintro ⟨h, hanswers⟩
      obtain - | ⟨r, h⟩ := h
      obtain ⟨hr, hanswers⟩ := hanswers
      -- the host's reply is the one that the play goes on with
      obtain rfl : (host q s).1 = r := hr
      have hrun := (ih (host q s).1).mpr ⟨h, hanswers⟩
      simp [hrun]

end Dialogue

namespace Session

open Dialogue

variable {α β : Type} {xs : List (Exchange Reply)}

theorem plays_pure_iff {a b : α} :
    (pure a : Session α).Plays xs b ↔ xs = [] ∧ b = a := plays_done_iff

theorem plays_ask_iff {q : Request} {r : Reply q} :
    (ask q).Plays xs r ↔ xs = [⟨q, r⟩] := plays_question_iff

theorem plays_pure_run_iff {a : α} {r : Except Fault α} :
    (pure a : Attempt α).run.Plays xs r ↔ xs = [] ∧ r = .ok a := plays_done_iff

theorem plays_throw_run_iff {e : Fault} {r : Except Fault α} :
    (throw e : Attempt α).run.Plays xs r ↔ xs = [] ∧ r = .error e := plays_done_iff

theorem pure_bind_eq (a : α) (f : α → Attempt β) : (pure a >>= f) = f a := rfl

theorem plays_bind_run_iff {x : Attempt α} {f : α → Attempt β} {r : Except Fault β} :
    (x >>= f).run.Plays xs r ↔
      (∃ e, x.run.Plays xs (.error e) ∧ r = .error e) ∨
        ∃ a ys zs, xs = ys ++ zs ∧ x.run.Plays ys (.ok a) ∧ (f a).run.Plays zs r := by
  rw [ExceptT.run_bind, plays_bind_iff]
  constructor
  · rintro ⟨a | e, ys, zs, rfl, hy, hz⟩
    · obtain ⟨rfl, rfl⟩ := plays_pure_iff.mp hz
      exact Or.inl ⟨_, by simpa using hy, rfl⟩
    · exact Or.inr ⟨_, ys, zs, rfl, hy, hz⟩
  · rintro (⟨e, hx, rfl⟩ | ⟨a, ys, zs, rfl, hy, hz⟩)
    · exact ⟨.error e, xs, [], by simp, hx, plays_pure_iff.mpr ⟨rfl, rfl⟩⟩
    · exact ⟨.ok a, ys, zs, rfl, hy, hz⟩

theorem plays_lift_run_iff {x : Session α} {r : Except Fault α} :
    (liftM x : Attempt α).run.Plays xs r ↔ ∃ a, x.Plays xs a ∧ r = .ok a := by
  change (x >>= fun a => pure (.ok a)).Plays xs r ↔ _
  rw [plays_bind_iff]
  constructor
  · rintro ⟨a, ys, zs, rfl, hy, hz⟩
    obtain ⟨rfl, rfl⟩ := plays_pure_iff.mp hz
    exact ⟨a, by simpa using hy, rfl⟩
  · rintro ⟨a, hx, rfl⟩
    exact ⟨a, xs, [], by simp, hx, plays_pure_iff.mpr ⟨rfl, rfl⟩⟩

theorem plays_adapt_run_iff {x : Attempt α} {word : Fault → Fault} {r : Except Fault α} :
    (x.adapt word).run.Plays xs r ↔ ∃ r', x.run.Plays xs r' ∧ r = r'.mapError word := by
  change (x.run >>= fun a => pure (a.mapError word)).Plays xs r ↔ _
  rw [plays_bind_iff]
  constructor
  · rintro ⟨a, ys, zs, rfl, hy, hz⟩
    obtain ⟨rfl, rfl⟩ := plays_pure_iff.mp hz
    exact ⟨a, by simpa using hy, rfl⟩
  · rintro ⟨a, hx, rfl⟩
    exact ⟨a, xs, [], by simp, hx, plays_pure_iff.mpr ⟨rfl, rfl⟩⟩

/-- Going through a list plays the acts on its members in turn, so what holds of the exchanges of
each act holds of all of them. -/
theorem forall_of_plays_each {act : α → Session Unit} {P : Exchange Reply → Prop} {items : List α}
    {u : Unit} (hact : ∀ a ∈ items, ∀ ys u, (act a).Plays ys u → ∀ x ∈ ys, P x)
    (h : (each act items).Plays xs u) : ∀ x ∈ xs, P x := by
  induction items generalizing xs with
  | nil =>
    obtain ⟨rfl, -⟩ := plays_pure_iff.mp h
    simp
  | cons a items ih =>
    obtain ⟨u', ys, zs, rfl, hy, hz⟩ := plays_bind_iff.mp h
    have hhead := hact a (List.mem_cons_self ..) ys u' hy
    have htail := ih (fun b hb => hact b (List.mem_cons_of_mem _ hb)) hz
    intro x hx
    rcases List.mem_append.mp hx with hx | hx
    · exact hhead x hx
    · exact htail x hx

end Session

end CodeGraft
