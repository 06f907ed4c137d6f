/-!
# Dialogues

A program that deals with the world is a dialogue: it asks a question, goes on by the reply, and in
the end gives a result. Who replies is left open. A host replies from a state; the exchanges of a
run, in their order, are what the world has seen of the program.
-/

namespace CodeGraft

/-- A program that asks questions of type `Q`, of which `q` is replied to by an `R q`. -/
inductive Dialogue (Q : Type) (R : Q → Type) (α : Type) where
  | done (a : α)
  | ask (q : Q) (go : R q → Dialogue Q R α)

namespace Dialogue

variable {Q : Type} {R : Q → Type} {α β σ : Type}

def bind (d : Dialogue Q R α) (f : α → Dialogue Q R β) : Dialogue Q R β :=
  match d with
  | done a => f a
  | ask q go => ask q fun r => (go r).bind f

instance : Monad (Dialogue Q R) where
  pure := done
  bind := bind

theorem pure_eq (a : α) : (pure a : Dialogue Q R α) = done a := rfl

theorem bind_eq (d : Dialogue Q R α) (f : α → Dialogue Q R β) : (d >>= f) = d.bind f := rfl

theorem bind_done (d : Dialogue Q R α) : d.bind done = d := by
  induction d with
  | done a => rfl
  | ask q go ih => simp [bind, ih]

theorem bind_assoc {γ : Type} (d : Dialogue Q R α) (f : α → Dialogue Q R β)
    (g : β → Dialogue Q R γ) : (d.bind f).bind g = d.bind fun a => (f a).bind g := by
  induction d with
  | done a => rfl
  | ask q go ih => simp [bind, ih]

def question (q : Q) : Dialogue Q R (R q) := ask q done

abbrev Exchange (R : Q → Type) : Type := Sigma R

abbrev Host (R : Q → Type) (σ : Type) : Type := (q : Q) → σ → R q × σ

def run (host : Host R σ) : Dialogue Q R α → σ → α × σ × List (Exchange R)
  | done a, s => (a, s, [])
  | ask q go, s =>
    let (r, s) := host q s
    let (a, s, exchanges) := run host (go r) s
    (a, s, ⟨q, r⟩ :: exchanges)

@[simp] theorem run_done (host : Host R σ) (a : α) (s : σ) :
    run host (done a) s = (a, s, []) := rfl

theorem run_bind (host : Host R σ) (d : Dialogue Q R α) (f : α → Dialogue Q R β) (s : σ) :
    run host (d.bind f) s =
      let (a, s, first) := run host d s
      let (b, s, later) := run host (f a) s
      (b, s, first ++ later) := by
  induction d generalizing s with
  | done a => rfl
  | ask q go ih => simp [bind, run, ih]

/-- The dialogue in which each question is replied to by a dialogue of another kind, which may keep
a state. -/
def relay {Q' : Type} {R' : Q' → Type}
    (reply : (q : Q) → StateT σ (Dialogue Q' R') (R q)) :
    Dialogue Q R α → StateT σ (Dialogue Q' R') α
  | done a => pure a
  | ask q go => reply q >>= fun r => relay reply (go r)

def hold {m : Type → Type} [Monad m] (reply : (q : Q) → m (R q)) : Dialogue Q R α → m α
  | done a => pure a
  | ask q go => reply q >>= fun r => hold reply (go r)

end Dialogue

end CodeGraft
