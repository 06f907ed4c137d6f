import CodeGraft.Proofs.Traces

/-!
# Dialogues by their states

Where the world is known and it is the states that count, a dialogue is looked at as a way from one
state to another. A step says how a question can be replied to in a state, and which state that
leads to. A dialogue of requests that another kind of dialogue replies to goes its way by the steps
of that other kind.
-/

namespace CodeGraft

namespace Dialogue

variable {Q : Type} {R : Q → Type} {α β σ ε : Type}

/-- How a question can be replied to in a state, and the state that this leads to. -/
abbrev Step (R : Q → Type) (σ : Type) : Type := (q : Q) → σ → R q → σ → Prop

/-- A dialogue can go by steps from one state to another, and end with a result. -/
def Goes (step : Step R σ) : Dialogue Q R α → σ → α → σ → Prop
  | done b, s, a, t => a = b ∧ t = s
  | ask q go, s, a, t => ∃ r u, step q s r u ∧ (go r).Goes step u a t

variable {step : Step R σ} {s t : σ}

theorem goes_pure_iff {a b : α} :
    (pure b : Dialogue Q R α).Goes step s a t ↔ a = b ∧ t = s := Iff.rfl

theorem goes_question_iff {q : Q} {r : R q} :
    (question q : Dialogue Q R (R q)).Goes step s r t ↔ step q s r t := by
  constructor
  · rintro ⟨r', u, hstep, rfl, rfl⟩
    exact hstep
  · intro hstep
    exact ⟨r, t, hstep, rfl, rfl⟩

theorem goes_bind_iff {d : Dialogue Q R α} {f : α → Dialogue Q R β} {b : β} :
    (d >>= f).Goes step s b t ↔ ∃ a u, d.Goes step s a u ∧ (f a).Goes step u b t := by
  rw [bind_eq]
  induction d generalizing s with
  | done a =>
    constructor
    · intro h
      exact ⟨a, s, ⟨rfl, rfl⟩, h⟩
    · rintro ⟨_, _, ⟨rfl, rfl⟩, h⟩
      exact h
  | ask q go ih =>
    constructor
    · rintro ⟨r, u, hstep, h⟩
      obtain ⟨a, v, hgo, hf⟩ := (ih r).mp h
      exact ⟨a, v, ⟨r, u, hstep, hgo⟩, hf⟩
    · rintro ⟨a, v, ⟨r, u, hstep, hgo⟩, hf⟩
      exact ⟨r, u, hstep, (ih r).mpr ⟨a, v, hgo, hf⟩⟩

theorem Goes.map {σ' : Type} {step' : Step R σ'} {view : σ → σ'}
    (hstep : ∀ q s r t, step q s r t → step' q (view s) r (view t)) {d : Dialogue Q R α} {a : α}
    (h : d.Goes step s a t) : d.Goes step' (view s) a (view t) := by
  induction d generalizing s with
  | done b =>
    obtain ⟨rfl, rfl⟩ := h
    exact ⟨rfl, rfl⟩
  | ask q go ih =>
    obtain ⟨r, u, hfirst, hrest⟩ := h
    exact ⟨r, view u, hstep q s r u hfirst, ih r hrest⟩

theorem Goes.mono {step' : Step R σ} (hstep : ∀ q s r t, step q s r t → step' q s r t)
    {d : Dialogue Q R α} {a : α} (h : d.Goes step s a t) : d.Goes step' s a t :=
  Goes.map hstep h

/-- The steps of a host in which every question passes a test. -/
def Host.steps (host : Host R σ) (test : Q → σ → Bool) : Step R σ :=
  fun q s r t => test q s = true ∧ host q s = (r, t)

/-- Whether every question of a run passes a test in the state that it is asked in. -/
def throughout (host : Host R σ) (test : Q → σ → Bool) : Dialogue Q R α → σ → Bool
  | done _, _ => true
  | ask q go, s => test q s && throughout host test (go (host q s).1) (host q s).2

theorem goes_steps_iff {host : Host R σ} {test : Q → σ → Bool} {d : Dialogue Q R α} {a : α} :
    d.Goes (Host.steps host test) s a t ↔
      (run host d s).1 = a ∧ (run host d s).2.1 = t ∧ throughout host test d s = true := by
  induction d generalizing s with
  | done b =>
    simp only [Goes, run_done, throughout, and_true]
    constructor
    · rintro ⟨rfl, rfl⟩
      exact ⟨rfl, rfl⟩
    · rintro ⟨rfl, rfl⟩
      exact ⟨rfl, rfl⟩
  | ask q go ih =>
    simp only [Goes, Host.steps, run, throughout, Bool.and_eq_true]
    constructor
    · rintro ⟨r, u, ⟨htest, hhost⟩, hgo⟩
      rw [hhost]
      obtain ⟨ha, ht, hrest⟩ := (ih r).mp hgo
      exact ⟨ha, ht, htest, hrest⟩
    · rintro ⟨ha, ht, htest, hrest⟩
      exact ⟨_, _, ⟨htest, rfl⟩, (ih _).mpr ⟨ha, ht, hrest⟩⟩

theorem throughout_always (host : Host R σ) (d : Dialogue Q R α) (s : σ) :
    throughout host (fun _ _ => true) d s = true := by
  induction d generalizing s with
  | done a => rfl
  | ask q go ih => exact ih _ _

theorem goes_run (host : Host R σ) (d : Dialogue Q R α) (s : σ) :
    d.Goes (Host.steps host fun _ _ => true) s (run host d s).1 (run host d s).2.1 :=
  goes_steps_iff.mpr ⟨rfl, rfl, throughout_always host d s⟩

/-- Every question that a dialogue can come to is of one kind. -/
def Asks (kind : Q → Prop) : Dialogue Q R α → Prop
  | done _ => True
  | ask q go => kind q ∧ ∀ r, (go r).Asks kind

theorem asks_question {kind : Q → Prop} {q : Q} (h : kind q) :
    (question q : Dialogue Q R (R q)).Asks kind := ⟨h, fun _ => trivial⟩

theorem asks_of_forall {kind : Q → Prop} (h : ∀ q, kind q) (d : Dialogue Q R α) : d.Asks kind := by
  induction d with
  | done a => trivial
  | ask q go ih => exact ⟨h q, ih⟩

theorem asks_bind {kind : Q → Prop} {d : Dialogue Q R α} {f : α → Dialogue Q R β}
    (hd : d.Asks kind) (hf : ∀ a, (f a).Asks kind) : (d >>= f).Asks kind := by
  rw [bind_eq]
  induction d with
  | done a => exact hf a
  | ask q go ih => exact ⟨hd.1, fun r => ih r (hd.2 r)⟩

/-- What every step on a kind of question keeps true stays true where no others are asked. -/
theorem Goes.invariant {kind : Q → Prop} {I : σ → Prop}
    (hkeeps : ∀ q s r t, kind q → step q s r t → I s → I t) {d : Dialogue Q R α} {a : α}
    (hd : d.Asks kind) (h : d.Goes step s a t) (hs : I s) : I t := by
  induction d generalizing s with
  | done b =>
    rw [h.2]
    exact hs
  | ask q go ih =>
    obtain ⟨r, u, hstep, hgo⟩ := h
    exact ih r (hd.2 r) hgo (hkeeps q s r u hd.1 hstep hs)

theorem Goes.keeps {kind : Q → Prop} {view : σ → β}
    (hkeeps : ∀ q s r t, kind q → step q s r t → view t = view s) {d : Dialogue Q R α} {a : α}
    (hd : d.Asks kind) (h : d.Goes step s a t) : view t = view s :=
  h.invariant (I := fun u => view u = view s)
    (fun q u r v hq hstep hu => (hkeeps q u r v hq hstep).trans hu) hd rfl

theorem Goes.keeps_of_host {host : Host R σ} {test : Q → σ → Bool} {view : σ → β}
    (hkeeps : ∀ q s, view (host q s).2 = view s) {d : Dialogue Q R α} {a : α}
    (h : d.Goes (Host.steps host test) s a t) : view t = view s := by
  have hall : d.Asks fun _ => True := asks_of_forall (fun _ => trivial) d
  refine h.keeps (fun q s r t _ hstep => ?_) hall
  rw [← hkeeps q s, hstep.2]

/-- Steps that have the given exchanges lead from one state to another. -/
def Follows (step : Step R σ) : σ → List (Exchange R) → σ → Prop
  | s, [], t => t = s
  | s, x :: xs, t => ∃ u, step x.1 s x.2 u ∧ Follows step u xs t

theorem follows_append {xs ys : List (Exchange R)} :
    Follows step s (xs ++ ys) t ↔ ∃ u, Follows step s xs u ∧ Follows step u ys t := by
  induction xs generalizing s with
  | nil => simp [Follows]
  | cons x xs ih =>
    simp only [List.cons_append, Follows, ih]
    constructor
    · rintro ⟨u, hx, v, hxs, hys⟩
      exact ⟨v, ⟨u, hx, hxs⟩, hys⟩
    · rintro ⟨v, ⟨u, hx, hxs⟩, hys⟩
      exact ⟨u, hx, v, hxs, hys⟩

theorem goes_iff_plays {d : Dialogue Q R α} {a : α} :
    d.Goes step s a t ↔ ∃ xs, d.Plays xs a ∧ Follows step s xs t := by
  induction d generalizing s with
  | done b =>
    constructor
    · rintro ⟨rfl, rfl⟩
      exact ⟨[], .done a, rfl⟩
    · rintro ⟨xs, hplays, hfollows⟩
      obtain ⟨rfl, rfl⟩ := plays_done_iff.mp hplays
      exact ⟨rfl, hfollows⟩
  | ask q go ih =>
    constructor
    · rintro ⟨r, u, hstep, hgo⟩
      obtain ⟨xs, hplays, hfollows⟩ := (ih r).mp hgo
      exact ⟨⟨q, r⟩ :: xs, .ask r hplays, u, hstep, hfollows⟩
    · rintro ⟨xs, hplays, hfollows⟩
      obtain - | ⟨r, hplays⟩ := hplays
      obtain ⟨u, hstep, hfollows⟩ := hfollows
      exact ⟨r, u, hstep, (ih r).mpr ⟨_, hplays, hfollows⟩⟩

theorem Follows.keeps {kind : Q → Prop} {view : σ → β}
    (hkeeps : ∀ q s r t, kind q → step q s r t → view t = view s) {xs : List (Exchange R)}
    (hxs : ∀ x ∈ xs, kind x.1) (h : Follows step s xs t) : view t = view s := by
  induction xs generalizing s with
  | nil => rw [h]
  | cons x xs ih =>
    obtain ⟨hx, hxs⟩ := List.forall_mem_cons.mp hxs
    obtain ⟨u, hstep, hrest⟩ := h
    exact (ih hxs hrest).trans (hkeeps _ _ _ _ hx hstep)

section

variable {Q' : Type} {R' : Q' → Type} {σ' : Type}

/-- The steps of a dialogue whose questions are replied to by dialogues of another kind, by the steps
of that kind. -/
def relayed (reply : (q : Q) → StateT σ (Dialogue Q' R') (R q)) (step : Step R' σ') :
    Step R (σ × σ') :=
  fun q s r t => ((reply q).run s.1).Goes step s.2 (r, t.1) t.2

theorem goes_relay_iff {reply : (q : Q) → StateT σ (Dialogue Q' R') (R q)} {step : Step R' σ'}
    {d : Dialogue Q R α} {a : α} {u v : σ} {s' t' : σ'} :
    ((relay reply d).run u).Goes step s' (a, v) t' ↔
      d.Goes (relayed reply step) (u, s') a (v, t') := by
  induction d generalizing u s' with
  | done b =>
    change (a, v) = (b, u) ∧ t' = s' ↔ a = b ∧ (v, t') = (u, s')
    simp only [Prod.mk.injEq, and_assoc]
  | ask q go ih =>
    change (((reply q).run u) >>= fun p => (relay reply (go p.1)).run p.2).Goes _ _ _ _ ↔ _
    rw [goes_bind_iff]
    constructor
    · rintro ⟨⟨r, w⟩, w', hreply, hgo⟩
      exact ⟨r, (w, w'), hreply, (ih r).mp hgo⟩
    · rintro ⟨r, ⟨w, w'⟩, hreply, hgo⟩
      exact ⟨(r, w), w', hreply, (ih r).mpr hgo⟩

end

section

variable {r : Except ε β} {x : ExceptT ε (Dialogue Q R) α} {f : α → ExceptT ε (Dialogue Q R) β}

theorem goes_bind_run_iff :
    (x >>= f).run.Goes step s r t ↔
      (∃ e, x.run.Goes step s (.error e) t ∧ r = .error e) ∨
        ∃ a u, x.run.Goes step s (.ok a) u ∧ (f a).run.Goes step u r t := by
  rw [ExceptT.run_bind, goes_bind_iff]
  constructor
  · rintro ⟨a | e, u, hx, hrest⟩
    · obtain ⟨rfl, rfl⟩ := goes_pure_iff.mp hrest
      exact Or.inl ⟨_, hx, rfl⟩
    · exact Or.inr ⟨_, u, hx, hrest⟩
  · rintro (⟨e, hx, rfl⟩ | ⟨a, u, hx, hrest⟩)
    · exact ⟨.error e, t, hx, goes_pure_iff.mpr ⟨rfl, rfl⟩⟩
    · exact ⟨.ok a, u, hx, hrest⟩

theorem goes_tryCatch_run_iff {r : Except ε α} {handle : ε → ExceptT ε (Dialogue Q R) α} :
    (tryCatch x handle).run.Goes step s r t ↔
      (∃ a, x.run.Goes step s (.ok a) t ∧ r = .ok a) ∨
        ∃ e u, x.run.Goes step s (.error e) u ∧ (handle e).run.Goes step u r t := by
  simp only [tryCatch, tryCatchThe, MonadExceptOf.tryCatch, ExceptT.tryCatch, ExceptT.run_mk]
  rw [goes_bind_iff]
  constructor
  · rintro ⟨a | e, u, hx, hrest⟩
    · exact Or.inr ⟨_, u, hx, hrest⟩
    · obtain ⟨rfl, rfl⟩ := goes_pure_iff.mp hrest
      exact Or.inl ⟨_, hx, rfl⟩
  · rintro (⟨a, hx, rfl⟩ | ⟨e, u, hx, hrest⟩)
    · exact ⟨.ok a, t, hx, goes_pure_iff.mpr ⟨rfl, rfl⟩⟩
    · exact ⟨.error e, u, hx, hrest⟩

theorem goes_adapt_run_iff {y : ExceptT ε (Dialogue Q R) β} {word : ε → ε} :
    (y.adapt word).run.Goes step s r t ↔
      ∃ found, y.run.Goes step s found t ∧ r = found.mapError word := by
  change (y.run >>= fun found => pure (found.mapError word) :
    Dialogue Q R (Except ε β)).Goes step s r t ↔ _
  rw [goes_bind_iff]
  constructor
  · rintro ⟨found, u, hy, rfl, rfl⟩
    exact ⟨found, hy, rfl⟩
  · rintro ⟨found, hy, rfl⟩
    exact ⟨found, t, hy, rfl, rfl⟩

theorem asks_bind_run {kind : Q → Prop} (hx : x.run.Asks kind) (hf : ∀ a, (f a).run.Asks kind) :
    (x >>= f).run.Asks kind := by
  rw [ExceptT.run_bind]
  refine asks_bind hx fun r => ?_
  cases r with
  | ok a => exact hf a
  | error e => exact trivial

theorem asks_tryCatch_run {kind : Q → Prop} {y : ExceptT ε (Dialogue Q R) β}
    {handle : ε → ExceptT ε (Dialogue Q R) β} (hy : y.run.Asks kind)
    (hhandle : ∀ e, (handle e).run.Asks kind) : (tryCatch y handle).run.Asks kind := by
  simp only [tryCatch, tryCatchThe, MonadExceptOf.tryCatch, ExceptT.tryCatch, ExceptT.run_mk]
  refine asks_bind hy fun r => ?_
  cases r with
  | ok b => exact trivial
  | error e => exact hhandle e

theorem asks_lift_run {kind : Q → Prop} {d : Dialogue Q R β} (hd : d.Asks kind) :
    (liftM d : ExceptT ε (Dialogue Q R) β).run.Asks kind :=
  asks_bind hd fun _ => trivial

theorem goes_lift_run_iff {d : Dialogue Q R β} :
    (liftM d : ExceptT ε (Dialogue Q R) β).run.Goes step s r t ↔
      ∃ b, d.Goes step s b t ∧ r = .ok b := by
  change (d >>= fun b => pure (.ok b) : Dialogue Q R (Except ε β)).Goes step s r t ↔ _
  rw [goes_bind_iff]
  constructor
  · rintro ⟨b, u, hd, hrest⟩
    obtain ⟨rfl, rfl⟩ := goes_pure_iff.mp hrest
    exact ⟨b, hd, rfl⟩
  · rintro ⟨b, hd, rfl⟩
    exact ⟨b, t, hd, goes_pure_iff.mpr ⟨rfl, rfl⟩⟩

theorem goes_lift_bind_run_iff {d : Dialogue Q R α} :
    ((liftM d : ExceptT ε (Dialogue Q R) α) >>= f).run.Goes step s r t ↔
      ∃ a u, d.Goes step s a u ∧ (f a).run.Goes step u r t := by
  rw [goes_bind_run_iff]
  constructor
  · rintro (⟨e, hd, -⟩ | ⟨a, u, hd, hrest⟩)
    · obtain ⟨b, -, heq⟩ := goes_lift_run_iff.mp hd
      cases heq
    · obtain ⟨b, hd, heq⟩ := goes_lift_run_iff.mp hd
      cases heq
      exact ⟨a, u, hd, hrest⟩
  · rintro ⟨a, u, hd, hrest⟩
    exact Or.inr ⟨a, u, goes_lift_run_iff.mpr ⟨a, hd, rfl⟩, hrest⟩

theorem goes_pure_run_iff {b : β} :
    (pure b : ExceptT ε (Dialogue Q R) β).run.Goes step s r t ↔ r = .ok b ∧ t = s := Iff.rfl

theorem goes_throw_run_iff {e : ε} :
    (throw e : ExceptT ε (Dialogue Q R) β).run.Goes step s r t ↔ r = .error e ∧ t = s := Iff.rfl

end

/-! ### Parts that a fault can end and that keep a state -/

section

variable {κ : Type} {u v : κ} {r : Except ε β}

/-- A fault in the first of two parts ends both; what the first has kept goes on to the second. -/
theorem goes_bind_work_iff {x : ExceptT ε (StateT κ (Dialogue Q R)) α}
    {f : α → ExceptT ε (StateT κ (Dialogue Q R)) β} :
    ((x >>= f).run.run u).Goes step s (r, v) t ↔
      (∃ e, (x.run.run u).Goes step s (.error e, v) t ∧ r = .error e) ∨
        ∃ a w s', (x.run.run u).Goes step s (.ok a, w) s' ∧
          ((f a).run.run w).Goes step s' (r, v) t := by
  rw [ExceptT.run_bind, StateT.run_bind, goes_bind_iff]
  constructor
  · rintro ⟨⟨a | e, w⟩, s', hx, hrest⟩
    · obtain ⟨heq, rfl⟩ := goes_pure_iff.mp hrest
      cases heq
      exact Or.inl ⟨_, hx, rfl⟩
    · exact Or.inr ⟨_, w, s', hx, hrest⟩
  · rintro (⟨e, hx, rfl⟩ | ⟨a, w, s', hx, hrest⟩)
    · exact ⟨(.error e, v), t, hx, goes_pure_iff.mpr ⟨rfl, rfl⟩⟩
    · exact ⟨(.ok a, w), s', hx, hrest⟩

theorem goes_tryCatch_work_iff {x : ExceptT ε (StateT κ (Dialogue Q R)) β}
    {handle : ε → ExceptT ε (StateT κ (Dialogue Q R)) β} :
    ((tryCatch x handle).run.run u).Goes step s (r, v) t ↔
      (∃ b, (x.run.run u).Goes step s (.ok b, v) t ∧ r = .ok b) ∨
        ∃ e w s', (x.run.run u).Goes step s (.error e, w) s' ∧
          ((handle e).run.run w).Goes step s' (r, v) t := by
  simp only [tryCatch, tryCatchThe, MonadExceptOf.tryCatch, ExceptT.tryCatch, ExceptT.run_mk]
  rw [StateT.run_bind, goes_bind_iff]
  constructor
  · rintro ⟨⟨b | e, w⟩, s', hx, hrest⟩
    · exact Or.inr ⟨_, w, s', hx, hrest⟩
    · obtain ⟨heq, rfl⟩ := goes_pure_iff.mp hrest
      cases heq
      exact Or.inl ⟨_, hx, rfl⟩
  · rintro (⟨b, hx, rfl⟩ | ⟨e, w, s', hx, hrest⟩)
    · exact ⟨(.ok b, v), t, hx, goes_pure_iff.mpr ⟨rfl, rfl⟩⟩
    · exact ⟨(.error e, w), s', hx, hrest⟩

theorem goes_lift_work_iff {d : Dialogue Q R β} :
    ((liftM d : ExceptT ε (StateT κ (Dialogue Q R)) β).run.run u).Goes step s (r, v) t ↔
      ∃ b, d.Goes step s b t ∧ r = .ok b ∧ v = u := by
  change ((d >>= fun b => pure (b, u)) >>= fun p => pure (Except.ok p.1, p.2) :
    Dialogue Q R (Except ε β × κ)).Goes step s (r, v) t ↔ _
  simp only [goes_bind_iff, goes_pure_iff, Prod.mk.injEq]
  constructor
  · rintro ⟨_, _, ⟨b, s', hd, rfl, rfl⟩, ⟨rfl, rfl⟩, rfl⟩
    exact ⟨b, hd, rfl, rfl⟩
  · rintro ⟨b, hd, rfl, rfl⟩
    exact ⟨_, _, ⟨b, t, hd, rfl, rfl⟩, ⟨rfl, rfl⟩, rfl⟩

theorem goes_lift_bind_work_iff {d : Dialogue Q R α}
    {f : α → ExceptT ε (StateT κ (Dialogue Q R)) β} :
    (((liftM d : ExceptT ε (StateT κ (Dialogue Q R)) α) >>= f).run.run u).Goes step s (r, v) t ↔
      ∃ a s', d.Goes step s a s' ∧ ((f a).run.run u).Goes step s' (r, v) t := by
  rw [goes_bind_work_iff]
  constructor
  · rintro (⟨e, hd, -⟩ | ⟨a, w, s', hd, hrest⟩)
    · obtain ⟨b, -, heq, -⟩ := goes_lift_work_iff.mp hd
      cases heq
    · obtain ⟨b, hd, heq, rfl⟩ := goes_lift_work_iff.mp hd
      cases heq
      exact ⟨a, s', hd, hrest⟩
  · rintro ⟨a, s', hd, hrest⟩
    exact Or.inr ⟨a, u, s', goes_lift_work_iff.mpr ⟨a, hd, rfl, rfl⟩, hrest⟩

theorem goes_pure_bind_work_iff {a : α} {f : α → ExceptT ε (StateT κ (Dialogue Q R)) β} :
    (((pure a : ExceptT ε (StateT κ (Dialogue Q R)) α) >>= f).run.run u).Goes step s (r, v) t ↔
      ((f a).run.run u).Goes step s (r, v) t := Iff.rfl

theorem goes_get_bind_work_iff {f : κ → ExceptT ε (StateT κ (Dialogue Q R)) β} :
    (((get : ExceptT ε (StateT κ (Dialogue Q R)) κ) >>= f).run.run u).Goes step s (r, v) t ↔
      ((f u).run.run u).Goes step s (r, v) t := Iff.rfl

theorem goes_modify_bind_work_iff {change : κ → κ}
    {f : PUnit → ExceptT ε (StateT κ (Dialogue Q R)) β} :
    (((modify change : ExceptT ε (StateT κ (Dialogue Q R)) PUnit) >>= f).run.run u).Goes step s
      (r, v) t ↔ ((f ⟨⟩).run.run (change u)).Goes step s (r, v) t := Iff.rfl

theorem goes_pure_work_iff {b : β} :
    ((pure b : ExceptT ε (StateT κ (Dialogue Q R)) β).run.run u).Goes step s (r, v) t ↔
      (r = .ok b ∧ v = u) ∧ t = s := by
  rw [← Prod.mk.injEq]
  exact Iff.rfl

theorem goes_throw_work_iff {e : ε} :
    ((throw e : ExceptT ε (StateT κ (Dialogue Q R)) β).run.run u).Goes step s (r, v) t ↔
      (r = .error e ∧ v = u) ∧ t = s := by
  rw [← Prod.mk.injEq]
  exact Iff.rfl

end

-- From here on the lemmas above speak for `Goes`; a program is never run to see where it goes.
attribute [irreducible] Goes

end Dialogue

end CodeGraft
