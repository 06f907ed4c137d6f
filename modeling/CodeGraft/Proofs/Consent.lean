import CodeGraft.Proofs.Blockwise
import CodeGraft.Proofs.Truth
import Mathlib.Data.List.Basic

/-!
# Consent before changes

Where there is someone to ask, no file that exists is written before the user was shown that very
change and has agreed to it. A block whose question gets any other answer is skipped, and then
nothing has been written, backed up or recorded for it.
-/

namespace CodeGraft

open Text Dialogue

namespace Request

/-- Whether a request leaves the files of a workspace as they are by its nature. Those who keep
backups, the history or the log may do as they like. -/
def leavesFiles : Request → Bool
  | fileExists _ => true
  | readText _ => true
  | makeFolder _ => true
  | confirm _ _ => true
  | detail _ => true
  | log _ => true
  | _ => false

theorem leavesFiles_of_isNoting {q : Request} (h : q.isNoting = true) : q.leavesFiles = true := by
  cases q <;> first | rfl | cases h

end Request

/-- A host whose files can be seen in its state. Looking at files, asking the user and making folders
changes no file. -/
structure VisibleHost (σ : Type) where
  host : Host Reply σ
  /-- Whether there is a file at a path. -/
  stands : σ → Text → Bool
  /-- The content of a file, if it can be read. -/
  content? : σ → Text → Option Text
  exists_of_ok : ∀ s path found, (host (.fileExists path) s).1 = .ok found →
    found = stands s path
  content_of_ok : ∀ s path text, (host (.readText path) s).1 = .ok text →
    content? s path = some text
  keeps : ∀ s q, q.leavesFiles = true →
    stands (host q s).2 = stands s ∧ content? (host q s).2 = content? s

variable {σ : Type}

/-- The answer that agrees to a block: to the change of a file that stands, or to a new file. -/
def Settings.assent (settings : Settings) (stands : Bool) : Text :=
  if settings.diffPreview && stands then "Apply" else "Yes"

/-- Among exchanges from a state the user is asked for one change of the file at `target`, the one
from the content that it has at that moment to `content`, and agrees. -/
inductive Assented (w : VisibleHost σ) (settings : Settings) (s : σ) (target content : Text) :
    List (Exchange Reply) → Prop
  | intro {before after : List (Exchange Reply)} {t : σ} {existing prompt : Text}
      (options : List Text) (hmoment : Answers w.host s before t)
      (hstands : w.stands t target = true) (hexisting : w.content? t target = some existing)
      (hprompt : prompt =
        if settings.diffPreview then
          glue ["Apply changes to ", Path.basename target, "?\n",
            let diff := Diff.unified Diff.defaultContext target existing content
            if diff.isEmpty then "(no changes)\n" else diff]
        else glue ["File \"", target, "\" already exists. Overwrite?"]) :
      Assented w settings s target content
        (before ++ ⟨.confirm prompt options, .ok (some (settings.assent true))⟩ :: after)

/-- What the word of the user is worth for one block. -/
structure Consensual (w : VisibleHost σ) (settings : Settings) (s : σ)
    (xs : List (Exchange Reply)) (result : BlockResult) : Prop where
  /-- A file that stands is written behind an assent to just this change. -/
  assented : ∀ front behind target content reply t,
    xs = front ++ ⟨.writeText target content, reply⟩ :: behind → Answers w.host s front t →
    w.stands t target = true → Assented w settings s target content front
  /-- A block whose question gets another answer is skipped, without any effect. -/
  heeded : ∀ front behind prompt options answer t,
    xs = front ++ ⟨.confirm prompt options, .ok answer⟩ :: behind → Answers w.host s front t →
    answer ≠ some (settings.assent (w.stands t result.path)) →
    result.status = .skipped ∧ ∀ x ∈ xs, x.1.isEffect = false

namespace VisibleHost

variable (w : VisibleHost σ) {s t : σ} {xs : List (Exchange Reply)}

theorem files_eq_of_leavesFiles (hxs : Within Request.leavesFiles xs)
    (h : Answers w.host s xs t) : w.stands t = w.stands s ∧ w.content? t = w.content? s :=
  ⟨h.keeps fun x hx u => (w.keeps u x.1 (hxs x hx)).1,
    h.keeps fun x hx u => (w.keeps u x.1 (hxs x hx)).2⟩

end VisibleHost

section

variable {settings : Settings} {company : Company} {block : Block} {target : Text}
  {xs : List (Exchange Reply)} {result : BlockResult}

theorem Visit.path_eq (h : Visit settings company block target xs result) :
    result.path = target := by
  cases h <;> assumption

theorem heeds_of_visit (h : Visit settings company block target xs result) :
    Heeds settings target xs result := by
  cases h with
  | idle _ _ _ hheeds => exact hheeds
  | @creates asked folder last _ reply _ _ hasked hfolder hlast =>
    have hunasked : Unasked (folder ++ ⟨.writeText target block.code, reply⟩ :: last) := by
      refine Within.append ?_ (.cons rfl hlast.looking.unasked)
      rcases hfolder with rfl | rfl
      · exact .nil
      · exact .cons rfl .nil
    exact .of_agreement result .creation hasked hunasked
  | @updates existing revision told asked keeping last _ reply _ _ _ htold hasked hkeeping hlast =>
    have hkept : Unasked keeping :=
      fun x hx => Request.not_isAsking_of_isKeeping (hkeeping.within x hx)
    have hunasked : Unasked (keeping ++ ⟨.writeText target revision.content, reply⟩ :: last) :=
      hkept.append (.cons rfl hlast.looking.unasked)
    simpa using Heeds.of_agreement result (.change existing revision.content htold) hasked hunasked

theorem Leading.uneffective {front : List (Exchange Reply)} {question : Text × List Text}
    (h : Leading settings target front question) : ∀ x ∈ front, x.1.isEffect = false := by
  cases h with
  | change _ _ htold =>
    exact List.forall_mem_cons.mpr ⟨rfl, List.forall_mem_cons.mpr
      ⟨rfl, htold.telling.looking.uneffective⟩⟩
  | creation => exact List.forall_mem_cons.mpr ⟨rfl, by simp⟩

theorem head?_changeQuestion (existing content : Text) :
    (changeQuestion settings target existing content).2.head? = some (settings.assent true) := by
  unfold changeQuestion Settings.assent
  cases settings.diffPreview <;> rfl

theorem eq_of_write {ys zs front behind : List (Exchange Reply)} {path path' text text' : Text}
    {reply reply' : Except Fault Unit} (hys : Unwritten ys) (hzs : Unwritten zs)
    (h : ys ++ ⟨.writeText path text, reply⟩ :: zs =
      front ++ ⟨.writeText path' text', reply'⟩ :: behind) :
    ys = front ∧ path = path' ∧ text = text' := by
  obtain ⟨hfront, hwrite, -⟩ := (List.append_cons_inj_of_notMem
    (fun hmem => hys _ hmem path' text' rfl) (fun hmem => hzs _ hmem path' text' rfl)).mp h
  simp only [Sigma.mk.injEq, Request.writeText.injEq] at hwrite
  exact ⟨hfront, hwrite.1⟩

theorem eq_of_confirm {ys zs front behind : List (Exchange Reply)} {question : Text × List Text}
    {prompt : Text} {options : List Text} {reply reply' : Except Fault (Option Text)}
    (hys : Unasked ys) (hzs : Unasked zs)
    (h : ys ++ ⟨.confirm question.1 question.2, reply⟩ :: zs =
      front ++ ⟨.confirm prompt options, reply'⟩ :: behind) :
    ys = front ∧ reply = reply' ∧ zs = behind := by
  have hnot : ∀ {us}, Unasked us → (⟨.confirm prompt options, reply'⟩ : Exchange Reply) ∉ us := by
    intro us hus hmem
    have := hus _ hmem
    cases this
  obtain ⟨hfront, hasked, hbehind⟩ :=
    (List.append_cons_inj_of_notMem (hnot hys) (hnot hzs)).mp h
  simp only [Sigma.mk.injEq, Request.confirm.injEq] at hasked
  obtain ⟨⟨rfl, rfl⟩, hreply⟩ := hasked
  exact ⟨hfront, eq_of_heq hreply, hbehind⟩

end

namespace VisibleHost

variable (w : VisibleHost σ) {s t : σ} {settings : Settings} {company : Company} {block : Block}
  {target : Text} {xs : List (Exchange Reply)} {result : BlockResult}

theorem stands_of_read {existing : Text} {told : List (Exchange Reply)} (htold : Noting told)
    (h : Answers w.host s
      (⟨.fileExists target, .ok true⟩ :: ⟨.readText target, .ok existing⟩ :: told) t) :
    w.stands t target = true ∧ w.content? t target = some existing := by
  obtain ⟨hfound, hread, hrest⟩ := h
  have hnoted := w.files_eq_of_leavesFiles
    (fun x hx => Request.leavesFiles_of_isNoting (htold x hx)) hrest
  have hstands := w.exists_of_ok s target true hfound
  have hcontent := w.content_of_ok _ target existing hread
  obtain ⟨hstood, hheld⟩ := w.keeps s (.fileExists target) rfl
  obtain ⟨hstood', hheld'⟩ := w.keeps (w.host (.fileExists target) s).2 (.readText target) rfl
  constructor
  · rw [hnoted.1, hstood', hstood, ← hstands]
  · rw [hnoted.2, hheld', hcontent]

theorem head?_of_leading {front : List (Exchange Reply)} {question : Text × List Text}
    (hfront : Leading settings target front question) (h : Answers w.host s front t) :
    question.2.head? = some (settings.assent (w.stands t target)) := by
  cases hfront with
  | change existing content htold =>
    rw [(w.stands_of_read htold h).1, head?_changeQuestion]
  | creation =>
    obtain ⟨hfound, rfl⟩ := h
    have hstands := w.exists_of_ok s target false hfound
    rw [(w.keeps s (.fileExists target) rfl).1, ← hstands]
    simp [fileOptions, Settings.assent]

theorem assented_of_question {existing content : Text} {question : Text × List Text}
    {seek told keeping : List (Exchange Reply)} (htold : Noting told)
    (hquestion : question = changeQuestion settings target existing content)
    (h : Answers w.host s
      ((seek ++ ⟨.fileExists target, .ok true⟩ :: ⟨.readText target, .ok existing⟩ :: told) ++
        ⟨.confirm question.1 question.2, .ok (some (settings.assent true))⟩ :: keeping) t) :
    Assented w settings s target content
      ((seek ++ ⟨.fileExists target, .ok true⟩ :: ⟨.readText target, .ok existing⟩ :: told) ++
        ⟨.confirm question.1 question.2, .ok (some (settings.assent true))⟩ :: keeping) := by
  obtain ⟨v, hbefore, -⟩ := answers_append.mp h
  obtain ⟨u, -, hread⟩ := answers_append.mp hbefore
  obtain ⟨hstands, hcontent⟩ := w.stands_of_read htold hread
  refine .intro _ hbefore hstands hcontent ?_
  rw [hquestion]
  unfold changeQuestion
  cases settings.diffPreview <;> rfl

theorem assented_of_course (hcourse : Course settings company block xs result)
    (hconfirms : company.confirms = true) {front behind : List (Exchange Reply)}
    {path content : Text} {reply : Except Fault Unit}
    (hsplit : xs = front ++ ⟨.writeText path content, reply⟩ :: behind)
    (hmoment : Answers w.host s front t) (hstands : w.stands t path = true) :
    Assented w settings s path content front := by
  have hwrites : ¬ Unwritten xs := by
    intro hxs
    exact hxs ⟨_, reply⟩ (by simp [hsplit]) path content rfl
  cases hcourse with
  | unresolved hseek hlast =>
    have hseek := (quiet_of_resolveTarget hseek).unwritten
    exact absurd (hseek.append hlast.quiet.unwritten) hwrites
  | @resolved seek ys target _ hseek hvisit =>
    have hseek := (quiet_of_resolveTarget hseek).unwritten
    cases hvisit with
    | idle _ hquiet => exact absurd (hseek.append hquiet.unwritten) hwrites
    | @creates asked folder last _ made _ _ hasked hfolder hlast =>
      -- nothing in front of the write makes a file, so there is none at the target
      have hfree : Within Request.leavesFiles
          (⟨.fileExists target, .ok false⟩ :: (asked ++ folder)) := by
        refine .cons rfl (Within.append ?_ ?_)
        · cases hasked with
          | unasked => exact .nil
          | agreed => exact .cons rfl .nil
        · rcases hfolder with rfl | rfl
          · exact .nil
          · exact .cons rfl .nil
      have hfront : Unwritten
          (seek ++ ⟨.fileExists target, .ok false⟩ :: (asked ++ folder)) := by
        refine hseek.append fun x hx path text heq => ?_
        have := hfree x hx
        rw [heq] at this
        cases this
      obtain ⟨rfl, rfl, rfl⟩ := eq_of_write hfront hlast.quiet.unwritten (by simpa using hsplit)
      obtain ⟨u, -, hanswers⟩ := answers_append.mp hmoment
      have habsent := w.exists_of_ok u target false hanswers.1
      rw [(w.files_eq_of_leavesFiles hfree hanswers).1, ← habsent] at hstands
      cases hstands
    | @updates existing revision told asked keeping last _ reply' _ _ _ htold hasked hkeeping hlast =>
      rw [hconfirms] at hasked
      obtain ⟨⟨⟩⟩ | ⟨answer, -, hfirst⟩ := hasked
      rw [head?_changeQuestion, Option.some.injEq] at hfirst
      subst hfirst
      have hquiet : Quiet (⟨.fileExists target, .ok true⟩ ::
          ⟨.readText target, .ok existing⟩ :: told) := .cons rfl (.cons rfl htold.telling.quiet)
      have hkept : Unwritten (⟨.confirm (changeQuestion settings target existing revision.content).1
          (changeQuestion settings target existing revision.content).2,
          .ok (some (settings.assent true))⟩ :: keeping) :=
        Quiet.unwritten (.cons rfl .nil) |>.append hkeeping.unwritten
      obtain ⟨rfl, rfl, rfl⟩ := eq_of_write ((hseek.append hquiet.unwritten).append hkept)
        hlast.quiet.unwritten (by simpa using hsplit)
      exact w.assented_of_question htold rfl hmoment

theorem heeded_of_course (hcourse : Course settings company block xs result)
    {front behind : List (Exchange Reply)} {prompt : Text} {options : List Text}
    {answer : Option Text} (hsplit : xs = front ++ ⟨.confirm prompt options, .ok answer⟩ :: behind)
    (hmoment : Answers w.host s front t)
    (hother : answer ≠ some (settings.assent (w.stands t result.path))) :
    result.status = .skipped ∧ ∀ x ∈ xs, x.1.isEffect = false := by
  have hasks : ¬ Unasked xs := by
    intro hxs
    have := hxs ⟨.confirm prompt options, .ok answer⟩ (by simp [hsplit])
    cases this
  cases hcourse with
  | unresolved hseek hlast =>
    have hseek := (looking_of_resolveTarget hseek).unasked
    exact absurd (hseek.append hlast.looking.unasked) hasks
  | @resolved seek ys target _ hseek hvisit =>
    have hseek := looking_of_resolveTarget hseek
    have hpath := hvisit.path_eq
    cases heeds_of_visit hvisit with
    | unasked hunasked => exact absurd (hseek.unasked.append hunasked) hasks
    | @asked first behind' question _ reply hleading hunasked hdeclined =>
      rw [← List.append_assoc] at hsplit
      obtain ⟨rfl, rfl, rfl⟩ :=
        eq_of_confirm (hseek.unasked.append hleading.unasked) hunasked hsplit
      obtain ⟨u, -, hanswers⟩ := answers_append.mp hmoment
      rw [hpath, ← w.head?_of_leading hleading hanswers] at hother
      obtain ⟨hstatus, htelling⟩ := hdeclined answer rfl hother
      refine ⟨hstatus, List.forall_mem_append.mpr ⟨hseek.uneffective, ?_⟩⟩
      refine List.forall_mem_append.mpr ⟨hleading.uneffective, ?_⟩
      exact List.forall_mem_cons.mpr ⟨rfl, htelling.looking.uneffective⟩

theorem consensual_of_course (hcourse : Course settings company block xs result)
    (hconfirms : company.confirms = true) : Consensual w settings s xs result where
  assented _ _ _ _ _ _ := w.assented_of_course hcourse hconfirms
  heeded _ _ _ _ _ _ := w.heeded_of_course hcourse

end VisibleHost

/-- With someone to ask, the exchanges of a batch are those of its blocks, in each of which the word
of the user holds, and behind them files are shown and nothing else. -/
theorem applyBlocks_consensual (w : VisibleHost σ) (s : σ) (settings : Settings)
    {company : Company} (blocks : List Block) (hconfirms : company.confirms = true) :
    ∃ xs shown t, (run w.host (applyBlocks settings company blocks) s).2.2 = xs ++ shown ∧
      Blockwise w.host settings company (fun s _ xs result => Consensual w settings s xs result)
        s blocks xs (run w.host (applyBlocks settings company blocks) s).1.results t ∧
      Showing shown := by
  refine blockwise_of_applyBlocks (fun s t block xs result hrun => ?_) s blocks
  exact w.consensual_of_course (course_of_applyBlock (run_eq_iff.mp hrun).1) hconfirms

/-- A workspace in memory shows its files. -/
def MemoryHost.visible (m : MemoryHost σ) : VisibleHost σ where
  host := m.host
  stands s path := (m.content? s path).isSome
  content? := m.content?
  exists_of_ok := m.exists_of_ok
  content_of_ok := m.content_of_ok
  keeps s q hq := by
    have hkept : m.content? (m.host q s).2 = m.content? s := by
      refine m.keeps s q ?_
      rintro path text rfl
      cases hq
    exact ⟨by simp [hkept], hkept⟩

/-- The first change is agreed to, and the second is not answered. -/
theorem applyBlocks_consensual_of_rehearsal :
    let company : Company := { confirms := true, backups := true, records := true }
    let rehearsal : Rehearsal :=
      { files := [("a.js", "1"), ("b.js", "1")],
        answers := .replies [.ok (some "Apply".toList), .ok none],
        now := ⟨2024, 1, 2, 3, 4, 5, 6⟩ }
    let blocks : List Block := [⟨"a.js", [], "2"⟩, ⟨"b.js", [], "3"⟩]
    let w := Rehearsal.inMemory.visible
    let batch := run w.host (applyBlocks {} company blocks) rehearsal
    company.confirms = true ∧
      (∃ xs shown t, batch.2.2 = xs ++ shown ∧
        Blockwise w.host {} company (fun s _ xs result => Consensual w {} s xs result) rehearsal
          blocks xs batch.1.results t ∧ Showing shown) ∧
      batch.1.results.map (·.status) = [.updated, .skipped] ∧
      batch.2.1.content? "a.js".toList = some "2".toList ∧
      batch.2.1.content? "b.js".toList = some "1".toList :=
  ⟨rfl, applyBlocks_consensual _ _ _ _ rfl, by decide +kernel, by decide +kernel,
    by decide +kernel⟩

end CodeGraft
