import CodeGraft.Proofs.DryRuns
import CodeGraft.Proofs.Truth

/-!
# Files that are opened

When all blocks are done, the files that were written are shown to the user: each once, in the order
of its first write, and no more than the settings allow. They are chosen before the viewer is asked,
so a file that it cannot open gives its place to no other. Nothing else depends on the viewer.
-/

namespace CodeGraft

open Text Dialogue Session

/-- Whether a request shows a file to the user. -/
def Request.isViewing : Request → Bool
  | view _ => true
  | _ => false

theorem Request.not_isViewing_of_isInquiring {q : Request} (h : q.isInquiring = true) :
    (!q.isViewing) = true := by
  cases q <;> first | rfl | cases h

theorem Request.not_isViewing_of_isChanging {q : Request} (h : q.isChanging = true) :
    (!q.isViewing) = true := by
  cases q <;> first | rfl | cases h

/-- The path of the file that an exchange has written. A viewer that shows a file writes none. -/
def savedIn? : Exchange Reply → Option Text
  | ⟨.writeText path _, .ok ()⟩ => some path
  | ⟨.view _, _⟩ => none
  | _ => none

/-- The path that the viewer is asked to show in an exchange, and whether it does. -/
def viewingIn? : Exchange Reply → Option (Text × Bool)
  | ⟨.view path, .ok ()⟩ => some (path, true)
  | ⟨.view path, .error _⟩ => some (path, false)
  | _ => none

/-- The paths of the files that exchanges write, as often as they do. -/
def saved (xs : List (Exchange Reply)) : List Text := xs.filterMap savedIn?

/-- What the viewer is asked to show in exchanges, and whether it does. -/
def viewings (xs : List (Exchange Reply)) : List (Text × Bool) := xs.filterMap viewingIn?

abbrev Unviewed : List (Exchange Reply) → Prop := Within fun q => !q.isViewing

section

variable {xs ys : List (Exchange Reply)}

theorem saved_append (xs ys : List (Exchange Reply)) : saved (xs ++ ys) = saved xs ++ saved ys :=
  List.filterMap_append

theorem viewings_append (xs ys : List (Exchange Reply)) :
    viewings (xs ++ ys) = viewings xs ++ viewings ys := List.filterMap_append

theorem saved_of_unwritten (h : Unwritten xs) : saved xs = [] := by
  rw [saved, List.filterMap_eq_nil_iff]
  intro x hx
  obtain ⟨q, r⟩ := x
  cases q with
  | writeText path text => exact absurd rfl (h _ hx path text)
  | _ => rfl

theorem viewings_of_unviewed (h : Unviewed xs) : viewings xs = [] := by
  rw [viewings, List.filterMap_eq_nil_iff]
  intro x hx
  have hq := h x hx
  obtain ⟨q, r⟩ := x
  cases q with
  | view path => cases hq
  | _ => rfl

theorem mem_viewings_iff {path : Text} :
    (path, true) ∈ viewings xs ↔ (⟨.view path, .ok ()⟩ : Exchange Reply) ∈ xs := by
  rw [viewings, List.mem_filterMap]
  constructor
  · intro h
    obtain ⟨⟨q, r⟩, hx, hview⟩ := h
    cases q with
    | view other =>
      cases r with
      | ok =>
        obtain rfl : other = path := by simpa [viewingIn?] using hview
        exact hx
      | error e => simp [viewingIn?] at hview
    | _ => cases hview
  · intro h
    exact ⟨_, h, rfl⟩

end

section

variable {settings : Settings} {company : Company} {block : Block} {target : Text}
  {xs : List (Exchange Reply)} {result : BlockResult}

/-! ### What is written -/

/-- A course writes nothing, and its result does not claim that it did; or it writes once, and its
result tells whether that was done. -/
theorem Course.write_cases (h : Course settings company block xs result) :
    (Unwritten xs ∧ (result.status.isSuccess = true → settings.dryRun = true)) ∨
      ∃ front content reply last,
        xs = front ++ ⟨.writeText result.path content, reply⟩ :: last ∧ Unwritten front ∧
          Unwritten last ∧ settings.dryRun = false ∧
          (result.status.isSuccess = true ↔ reply = .ok ()) := by
  cases h with
  | unresolved hseek hlast _ hstatus =>
    refine .inl ⟨((quiet_of_resolveTarget hseek).append hlast.quiet).unwritten, ?_⟩
    simp [hstatus, Status.isSuccess]
  | @resolved seek ys target _ hseek hvisit =>
    have hseek := quiet_of_resolveTarget hseek
    have hsaved : ∀ success, success.isSuccess = true → ∀ reply : Except Fault Unit,
        ((savedAs success reply).isSuccess = true ↔ reply = .ok ()) := by
      intro success hsuccess reply
      cases reply with
      | ok => simpa [savedAs] using hsuccess
      | error e => simp [savedAs, Status.isSuccess]
    cases hvisit with
    | idle _ hquiet hdry => exact .inl ⟨(hseek.append hquiet).unwritten, hdry⟩
    | @creates asked folder last _ reply hpath hdry hasked hfolder hlast hstatus =>
      have hquiet : Quiet (seek ++ ⟨.fileExists target, .ok false⟩ :: (asked ++ folder)) := by
        refine hseek.append (.cons rfl (hasked.quiet.append ?_))
        rcases hfolder with rfl | rfl
        · exact .nil
        · exact .cons rfl .nil
      refine .inr ⟨_, block.code, reply, last, ?_, hquiet.unwritten, hlast.quiet.unwritten, hdry, ?_⟩
      · simp [hpath]
      · rw [hstatus]
        exact hsaved .created rfl reply
    | @updates existing revision told asked keeping last _ reply hpath hdry _ htold hasked hkeeping
        hlast hstatus =>
      have hquiet : Quiet (seek ++ ⟨.fileExists target, .ok true⟩ ::
          ⟨.readText target, .ok existing⟩ :: (told ++ asked)) :=
        hseek.append (.cons rfl (.cons rfl (htold.telling.quiet.append hasked.quiet)))
      have hfront := hquiet.unwritten.append hkeeping.unwritten
      refine .inr ⟨_, revision.content, reply, last, ?_, hfront, hlast.quiet.unwritten, hdry, ?_⟩
      · simp [hpath]
      · rw [hstatus]
        exact hsaved .updated rfl reply

theorem saved_of_course (h : Course settings company block xs result) :
    saved xs = if result.status.isSuccess && !settings.dryRun then [result.path] else [] := by
  obtain ⟨hxs, hdry⟩ | ⟨front, content, reply, last, rfl, hfront, hlast, hdry, hreply⟩ :=
    h.write_cases
  · rw [saved_of_unwritten hxs, if_neg]
    simpa using hdry
  · have hwrite : saved [⟨.writeText result.path content, reply⟩] =
        if result.status.isSuccess then [result.path] else [] := by
      cases reply with
      | ok => rw [if_pos (hreply.mpr rfl)]; rfl
      | error e => rw [if_neg (by simp [hreply])]; rfl
    rw [List.append_cons, saved_append, saved_append, saved_of_unwritten hfront,
      saved_of_unwritten hlast, hwrite, hdry]
    simp

theorem saved_of_courses {blocks : List Block} {results : List BlockResult}
    (h : Courses settings company blocks xs results) :
    saved xs = if settings.dryRun then []
      else (results.filter (·.status.isSuccess)).map (·.path) := by
  induction h with
  | nil => simp [saved]
  | cons hcourse _ ih =>
    rw [saved_append, ih, saved_of_course hcourse, List.filter_cons]
    cases settings.dryRun with
    | true => simp
    | false => split <;> simp_all

theorem Course.exists_seek (h : Course settings company block xs result)
    (hsuccess : result.status.isSuccess = true) :
    ∃ seek, seek <+: xs ∧ (resolveTarget settings block.path).run.Plays seek (.ok result.path) := by
  cases h with
  | unresolved _ _ _ hstatus =>
    rw [hstatus] at hsuccess
    cases hsuccess
  | @resolved seek ys target _ hseek hvisit =>
    have hpath : result.path = target := by
      cases hvisit with
      | idle hpath => exact hpath
      | creates _ hpath => exact hpath
      | updates _ hpath => exact hpath
    exact ⟨seek, List.prefix_append .., hpath ▸ hseek⟩

/-- Each path that is written is what the hint of a block was found to stand for, and its result tells
of the success. -/
theorem Courses.of_mem_saved {blocks : List Block} {results : List BlockResult} {path : Text}
    (h : Courses settings company blocks xs results) (hpath : path ∈ saved xs) :
    ∃ block result seek, (block, result) ∈ blocks.zip results ∧ result.path = path ∧
      result.status.isSuccess = true ∧ seek <:+: xs ∧
      (resolveTarget settings block.path).run.Plays seek (.ok path) := by
  induction h with
  | nil => cases hpath
  | @cons block blocks ys zs result results hcourse _ ih =>
    rw [saved_append, saved_of_course hcourse, List.mem_append] at hpath
    rcases hpath with hpath | hpath
    · split at hpath
      next hsuccess =>
        obtain rfl := List.mem_singleton.mp hpath
        have hsuccess := (Bool.and_eq_true_iff.mp hsuccess).1
        obtain ⟨seek, hseek, hplays⟩ := hcourse.exists_seek hsuccess
        exact ⟨block, result, seek, List.mem_cons_self .., rfl, hsuccess,
          (hseek.trans (List.prefix_append ..)).isInfix, hplays⟩
      next => cases hpath
    · obtain ⟨block', result', seek, hzip, hresult, hsuccess, hseek, hplays⟩ := ih hpath
      exact ⟨block', result', seek, List.mem_cons_of_mem _ hzip, hresult, hsuccess,
        hseek.trans (List.suffix_append ..).isInfix, hplays⟩

section

variable {α : Type} [BEq α] [LawfulBEq α]

theorem eraseDups_concat (xs : List α) (x : α) :
    (xs ++ [x]).eraseDups = if xs.contains x then xs.eraseDups else xs.eraseDups ++ [x] := by
  rw [List.eraseDups_append]
  by_cases hx : x ∈ xs
  · simp [hx, List.removeAll]
  · simp [hx, List.removeAll, List.eraseDups_cons]

theorem nodup_eraseDups (xs : List α) : xs.eraseDups.Nodup := by
  induction xs using List.reverseRecOn with
  | nil => exact List.nodup_nil
  | append_singleton xs x ih =>
    rw [eraseDups_concat]
    split
    next => exact ih
    next hx =>
      have hnew : ∀ y ∈ xs.eraseDups, y ≠ x := by
        intro y hy heq
        subst heq
        exact hx (by simpa using hy)
      exact List.nodup_append.mpr ⟨ih, by simp, fun y hy z hz =>
        List.mem_singleton.mp hz ▸ hnew y hy⟩

theorem foldl_gather (xs : List α) :
    xs.foldl (fun found x => if found.contains x then found else found ++ [x]) [] =
      xs.eraseDups := by
  induction xs using List.reverseRecOn with
  | nil => rfl
  | append_singleton xs x ih =>
    rw [List.foldl_append, ih, eraseDups_concat, List.foldl_cons, List.foldl_nil]
    simp

end

theorem writtenPaths_eq {blocks : List Block} {results : List BlockResult}
    (h : Courses settings company blocks xs results) :
    writtenPaths settings results = (saved xs).eraseDups := by
  rw [saved_of_courses h, writtenPaths]
  split
  next => rfl
  next => rw [← foldl_gather, List.foldl_map]

/-- What the viewer does with written files: it is asked for as many of them as the settings allow, one
after another, and those are opened that it shows. -/
structure Shows (settings : Settings) (company : Company) (written : List Text)
    (xs : List (Exchange Reply)) (opened : List Text) : Prop where
  showing : Showing xs
  asked : (viewings xs).map (·.1) =
    if company.views then written.take settings.maxOpen.toNat else []
  opened_eq : opened = ((viewings xs).filter (·.2)).map (·.1)

theorem Telling.unviewed (h : Telling xs) : Unviewed xs :=
  fun x hx => Request.not_isViewing_of_isInquiring (Request.isInquiring_of_isTelling (h x hx))

/-- The viewer is asked for each path, whatever it did with those before. -/
theorem viewings_of_openEach {paths opened : List Text} (h : (openEach paths).Plays xs opened) :
    (viewings xs).map (·.1) = paths ∧ opened = ((viewings xs).filter (·.2)).map (·.1) := by
  induction paths generalizing xs opened with
  | nil =>
    obtain ⟨rfl, rfl⟩ := plays_pure_iff.mp h
    exact ⟨rfl, rfl⟩
  | cons path paths ih =>
    obtain ⟨r, ys, zs, rfl, hview, hrest⟩ := plays_bind_iff.mp h
    obtain rfl := plays_ask_iff.mp hview
    cases r with
    | ok =>
      obtain ⟨more, ys, ws, rfl, hmore, hpure⟩ := plays_bind_iff.mp hrest
      obtain ⟨rfl, rfl⟩ := plays_pure_iff.mp hpure
      obtain ⟨hasked, hopened⟩ := ih hmore
      have hfirst : viewings [⟨.view path, .ok ()⟩] = [(path, true)] := rfl
      rw [List.append_nil, viewings_append, hfirst]
      refine ⟨congrArg (path :: ·) hasked, ?_⟩
      rw [hopened]
      rfl
    | error e =>
      obtain ⟨u, ys, ws, rfl, hlog, hmore⟩ := plays_bind_iff.mp hrest
      obtain ⟨hasked, hopened⟩ := ih hmore
      have hfirst : viewings [⟨.view path, .error e⟩] = [(path, false)] := rfl
      have hlogged := viewings_of_unviewed (telling_of_log hlog).unviewed
      rw [viewings_append, viewings_append, hfirst, hlogged, List.nil_append]
      refine ⟨congrArg (path :: ·) hasked, ?_⟩
      rw [hopened]
      rfl

theorem shows_of_openWritten {written opened : List Text}
    (h : (openWritten settings company written).Plays xs opened) :
    Shows settings company written xs opened := by
  have hshowing := showing_of_openWritten h
  simp only [openWritten] at h
  split at h
  next hnone =>
    obtain ⟨rfl, rfl⟩ := plays_pure_iff.mp h
    refine ⟨hshowing, ?_, rfl⟩
    split
    next hviews =>
      obtain rfl : written = [] := by simpa [hviews] using hnone
      exact List.take_nil.symm
    next => rfl
  next hsome =>
    simp only [Bool.or_eq_true, Bool.not_eq_true', not_or, Bool.not_eq_false] at hsome
    obtain ⟨opened', ys, zs, rfl, hopen, hrest⟩ := plays_bind_iff.mp h
    obtain ⟨hasked, hopened⟩ := viewings_of_openEach hopen
    have hend : Telling zs ∧ opened = opened' := by
      split at hrest
      · obtain ⟨u, ys, ws, rfl, htell, hpure⟩ := plays_bind_iff.mp hrest
        obtain ⟨rfl, rfl⟩ := plays_pure_iff.mp hpure
        exact ⟨by simpa using telling_of_tell htell, rfl⟩
      · obtain ⟨rfl, rfl⟩ := plays_pure_iff.mp hrest
        exact ⟨.nil, rfl⟩
    obtain ⟨htold, rfl⟩ := hend
    have hviewings : viewings (ys ++ zs) = viewings ys := by
      rw [viewings_append, viewings_of_unviewed htold.unviewed, List.append_nil]
    refine ⟨hshowing, ?_, ?_⟩
    · rw [hviewings, hasked, if_pos hsome.1]
    · rw [hviewings, ← hopened]

namespace Shows

variable {written opened : List Text} (h : Shows settings company written xs opened)

include h

theorem sublist : opened.Sublist (written.take settings.maxOpen.toNat) := by
  have hfilter : opened.Sublist ((viewings xs).map (·.1)) := by
    rw [h.opened_eq]
    exact List.filter_sublist.map _
  rw [h.asked] at hfilter
  split at hfilter
  next => exact hfilter
  next => exact hfilter.trans (List.nil_sublist _)

theorem mem_iff {path : Text} : path ∈ opened ↔
    path ∈ written.take settings.maxOpen.toNat ∧
      (⟨.view path, .ok ()⟩ : Exchange Reply) ∈ xs := by
  have hopened : path ∈ opened ↔ (path, true) ∈ viewings xs := by
    rw [h.opened_eq]
    simp
  rw [← mem_viewings_iff, ← hopened]
  exact ⟨fun hmem => ⟨h.sublist.subset hmem, hmem⟩, fun hmem => hmem.2⟩

end Shows

end

/-- Two hosts that reply in the same way to all but the viewing of files. -/
def DifferInViews {σ : Type} (host host' : Host Reply σ) : Prop :=
  ∀ q, q.isViewing = false → host q = host' q

section

variable {σ α : Type} {host host' : Host Reply σ} {s t : σ} {xs : List (Exchange Reply)}

theorem DifferInViews.answers (h : DifferInViews host host') (hxs : Unviewed xs)
    (hanswers : Answers host s xs t) : Answers host' s xs t := by
  induction xs generalizing s with
  | nil => exact hanswers
  | cons x xs ih =>
    obtain ⟨hx, hxs⟩ := List.forall_mem_cons.mp hxs
    obtain ⟨hreply, hrest⟩ := hanswers
    have hsame := h x.1 (by simpa using hx)
    rw [hsame] at hreply hrest
    exact ⟨hreply, ih hxs hrest⟩

theorem DifferInViews.run_eq (h : DifferInViews host host') {d : Session α}
    (hd : KeepsTo (fun q => !q.isViewing) d) (s : σ) : run host' d s = run host d s := by
  obtain ⟨hplays, hanswers⟩ := run_eq_iff.mp (rfl : run host d s = _)
  exact run_eq_iff.mpr ⟨hplays, h.answers (hd _ _ hplays) hanswers⟩

end

section

variable {settings : Settings} {company : Company}

abbrev Unviewing {α : Type} (d : Session α) : Prop := KeepsTo (fun q => !q.isViewing) d

theorem unviewing_applyEach (blocks : List Block) :
    Unviewing (applyEach settings company blocks) := by
  refine keepsTo_applyEach (fun block => keepsTo_applyBlock ?_ fun _ => ?_) blocks
  · exact Request.not_isViewing_of_isInquiring
  · exact Request.not_isViewing_of_isChanging

end

/-- With any host, a batch first applies its blocks and then opens files. The viewer is asked for the
files that were written, each once and in the order of the first time, but for no more than the
settings allow; those that it shows are told to be opened. Any other viewer would leave the results
and the files as they are. -/
theorem applyBlocks_opens {σ : Type} (host : Host Reply σ) (s : σ) (settings : Settings)
    (company : Company) (blocks : List Block) :
    let batch := run host (applyBlocks settings company blocks) s
    let opened := batch.1.opened
    let first := (saved batch.2.2).eraseDups.take settings.maxOpen.toNat
    ∃ xs shown, batch.2.2 = xs ++ shown ∧ Unviewed xs ∧ Showing shown ∧
      (viewings shown).map (·.1) = (if company.views then first else []) ∧
      opened.Nodup ∧ opened.Sublist first ∧ (opened.length : Int) ≤ max settings.maxOpen 0 ∧
      (∀ path, path ∈ opened ↔ path ∈ first ∧ (⟨.view path, .ok ()⟩ : Exchange Reply) ∈ shown) ∧
      (∀ path ∈ opened, ∃ block result seek, (block, result) ∈ blocks.zip batch.1.results ∧
        result.path = path ∧ (result.status = .created ∨ result.status = .updated) ∧
        seek <:+: xs ∧ (resolveTarget settings block.path).run.Plays seek (.ok path)) ∧
      ∀ host', DifferInViews host host' →
        let other := run host' (applyBlocks settings company blocks) s
        other.1.results = batch.1.results ∧ (∃ shown', other.2.2 = xs ++ shown' ∧ Showing shown') ∧
        ∀ {φ : Type} (files : σ → φ),
          (∀ q t, q.isEffect = false →
            files (host q t).2 = files t ∧ files (host' q t).2 = files t) →
          files other.2.1 = files batch.2.1 := by
  intro batch opened first
  rcases heach : run host (applyEach settings company blocks) s with ⟨results, t, xs⟩
  rcases hopen : run host (openWritten settings company (writtenPaths settings results)) t with
    ⟨shownPaths, u, shown⟩
  have hbatch : batch = ({ results, opened := shownPaths, dryRun := settings.dryRun }, u,
      xs ++ shown) := by
    rw [show batch = _ from run_applyBlocks heach, hopen]
  obtain ⟨hplays, -⟩ := run_eq_iff.mp heach
  obtain ⟨hopenPlays, hshown⟩ := run_eq_iff.mp hopen
  have hcourses := courses_of_applyEach hplays
  have hshows := shows_of_openWritten hopenPlays
  -- nothing is written behind the last block
  have hwritten : writtenPaths settings results = (saved batch.2.2).eraseDups := by
    rw [writtenPaths_eq hcourses, hbatch]
    dsimp only
    rw [saved_append, saved_of_unwritten hshows.showing.quiet.unwritten, List.append_nil]
  rw [hwritten] at hshows
  have hopened : opened = shownPaths := congrArg (·.1.opened) hbatch
  rw [← hopened] at hshows
  have hsublist := hshows.sublist
  refine ⟨xs, shown, congrArg (·.2.2) hbatch, unviewing_applyEach blocks _ _ hplays,
    hshows.showing, hshows.asked, ?_, hsublist, ?_, fun path => hshows.mem_iff, ?_, ?_⟩
  · exact hsublist.nodup ((List.take_sublist _ _).nodup (nodup_eraseDups _))
  · have hlength := hsublist.length_le
    have htake := List.length_take_le settings.maxOpen.toNat (saved batch.2.2).eraseDups
    omega
  · intro path hpath
    have hmem := List.mem_of_mem_take (hsublist.subset hpath)
    rw [← hwritten, writtenPaths_eq hcourses, List.mem_eraseDups] at hmem
    obtain ⟨block, result, seek, hzip, hresult, hsuccess, hseek, hresolves⟩ :=
      hcourses.of_mem_saved hmem
    refine ⟨block, result, seek, ?_, hresult, ?_, hseek, hresolves⟩
    · rwa [hbatch]
    · cases hstatus : result.status <;> simp_all [Status.isSuccess]
  · intro host' hviews other
    rcases hopen' : run host' (openWritten settings company (writtenPaths settings results)) t with
      ⟨shownPaths', u', shown'⟩
    have heach' := (hviews.run_eq (unviewing_applyEach blocks) s).trans heach
    have hother : other = ({ results, opened := shownPaths', dryRun := settings.dryRun }, u',
        xs ++ shown') := by
      rw [show other = _ from run_applyBlocks heach', hopen']
    obtain ⟨hopenPlays', hshown'⟩ := run_eq_iff.mp hopen'
    have hshowing' := (shows_of_openWritten hopenPlays').showing
    rw [hbatch, hother]
    refine ⟨rfl, ⟨shown', rfl, hshowing'⟩, fun files hkeeps => ?_⟩
    have hfiles : files u = files t := hshown.keeps fun x hx v =>
      (hkeeps x.1 v (hshows.showing.uneffective x hx)).1
    have hfiles' : files u' = files t := hshown'.keeps fun x hx v =>
      (hkeeps x.1 v (hshowing'.uneffective x hx)).2
    exact hfiles'.trans hfiles.symm

/-- The file that the viewer fails for takes one of the two places. -/
example :
    let rehearsal : Rehearsal :=
      { viewFailures := [("b.js", .notOffered)], now := ⟨2024, 1, 2, 3, 4, 5, 6⟩ }
    let blocks : List Block := ["b.js", "a.js", "b.js", "c.js"].map fun path => ⟨path, [], "1"⟩
    (run Rehearsal.host (applyBlocks { maxOpen := 2 } { views := true } blocks) rehearsal).1.opened =
      ["a.js".toList] := by decide +kernel

end CodeGraft
