import CodeGraft.Proofs.Places

/-!
# Normal forms of paths

The normal form of an absolute path spells a place: it has one slash or two in front, and then the
names on the way to the place, with a slash between neighbours. The place is the one that the path
leads to on a disk, where each pair of dots takes back a step. A path that spells a place is its own
normal form, and so are the paths of the folders above it.
-/

namespace CodeGraft.Path

open Text Disk

/-- A path that spells a place: the names on the way to it, behind one slash or two. -/
structure Spells (path : Text) (place : Place) : Prop where
  eq : path = '/' :: joinWith ['/'] place ∨ path = '/' :: '/' :: joinWith ['/'] place
  names : ∀ name ∈ place, IsName name

/-- A normal path with a single slash in front. -/
structure IsReal (path : Text) : Prop where
  normal : normalize path = path
  root : rootOf path = ['/']

theorem rootOf_one {text : Text} (h : text.head? ≠ some '/') : rootOf ('/' :: text) = ['/'] := by
  unfold rootOf
  split
  next heq => simp_all
  next heq => simp_all
  next heq => rfl
  next hnot => exact absurd rfl (hnot text)

theorem rootOf_two {text : Text} (h : text.head? ≠ some '/') :
    rootOf ('/' :: '/' :: text) = ['/', '/'] := by
  unfold rootOf
  split
  next heq => simp_all
  next heq => rfl
  next hnot heq => exact absurd (List.cons.inj heq).2.symm (hnot text)
  next hnot => exact absurd rfl (hnot ('/' :: text))

theorem rootOf_of_isAbsolute {path : Text} (h : isAbsolute path = true) :
    rootOf path = ['/'] ∨ rootOf path = ['/', '/'] := by
  unfold rootOf
  split
  next => exact .inl rfl
  next => exact .inr rfl
  next => exact .inl rfl
  next hnot =>
    cases path with
    | nil => simp [isAbsolute] at h
    | cons c path =>
      obtain rfl : c = '/' := by simpa [isAbsolute] using h
      exact absurd rfl (hnot path)

/-- Below the root a part moves the stack as it leads on a disk. -/
theorem reverse_pushPart {stack : List Text} {part : Text} (hstack : ∀ n ∈ stack, IsName n) :
    (pushPart true stack part).reverse =
      if part = [] then stack.reverse else step stack.reverse part := by
  unfold pushPart step
  by_cases hempty : part = []
  · simp [hempty]
  by_cases hdot : part = ['.']
  · simp [hdot]
  by_cases hdots : part = ['.', '.']
  · cases stack with
    | nil => simp [hdots]
    | cons top rest =>
      have htop := (hstack top (List.mem_cons_self ..)).ne_dots
      simp [hdots, htop]
  · simp [hempty, hdot, hdots]

theorem names_pushPart {stack : List Text} {part : Text} (hstack : ∀ n ∈ stack, IsName n)
    (hpart : '/' ∉ part) : ∀ n ∈ pushPart true stack part, IsName n := by
  unfold pushPart
  split
  next => exact hstack
  next hplain =>
    obtain ⟨hempty, hdot⟩ := not_or.mp hplain
    split
    next =>
      cases stack with
      | nil => simp
      | cons top rest =>
        have htop := (hstack top (List.mem_cons_self ..)).ne_dots
        simpa [htop] using fun n hn => hstack n (List.mem_cons_of_mem _ hn)
    next hdots =>
      intro n hn
      rcases List.mem_cons.mp hn with rfl | hn
      · exact ⟨hempty, hpart, hdot, hdots⟩
      · exact hstack n hn

theorem foldl_pushPart {parts stack : List Text} (hstack : ∀ n ∈ stack, IsName n)
    (hparts : ∀ part ∈ parts, '/' ∉ part) :
    (parts.foldl (pushPart true) stack).reverse =
        (parts.filter (· ≠ [])).foldl step stack.reverse ∧
      ∀ n ∈ parts.foldl (pushPart true) stack, IsName n := by
  induction parts generalizing stack with
  | nil => exact ⟨rfl, hstack⟩
  | cons part parts ih =>
    obtain ⟨hpart, hparts⟩ := List.forall_mem_cons.mp hparts
    obtain ⟨heq, hnames⟩ := ih (names_pushPart hstack hpart) hparts
    refine ⟨?_, hnames⟩
    rw [List.foldl_cons, heq, reverse_pushPart hstack]
    by_cases hempty : part = []
    · simp [hempty]
    · simp [hempty]

theorem normalParts_eq {path : Text} (h : isAbsolute path = true) (current : Place) :
    normalParts path = destination current path ∧ ∀ n ∈ normalParts path, IsName n := by
  have hparts : ∀ part ∈ splitOn '/' path, '/' ∉ part := fun _ hp => not_mem_of_mem_splitOn hp
  have hnone : ∀ n ∈ ([] : List Text), IsName n := by simp
  obtain ⟨heq, hnames⟩ := foldl_pushPart hnone hparts
  unfold normalParts destination
  rw [h, heq, if_pos rfl]
  refine ⟨rfl, fun n hn => ?_⟩
  rw [← heq, List.mem_reverse] at hn
  exact hnames n hn

/-! ### Names with slashes between them -/

theorem splitOn_joinWith {names : List Text} (hne : names ≠ []) (h : ∀ n ∈ names, '/' ∉ n) :
    splitOn '/' (joinWith ['/'] names) = names := by
  induction names with
  | nil => exact absurd rfl hne
  | cons name names ih =>
    have hname := h name (List.mem_cons_self ..)
    by_cases hlast : names = []
    · subst hlast
      exact splitOn_of_not_mem hname
    · have hrest := ih hlast fun n hn => h n (List.mem_cons_of_mem _ hn)
      rw [joinWith_cons _ _ _ hlast, List.append_assoc, List.singleton_append, splitOn_append,
        splitOn_of_not_mem hname, hrest]
      rfl

theorem filter_splitOn_joinWith {names : List Text} (h : ∀ n ∈ names, IsName n) :
    (splitOn '/' (joinWith ['/'] names)).filter (· ≠ []) = names := by
  by_cases hne : names = []
  · subst hne
    rfl
  · rw [splitOn_joinWith hne fun n hn => (h n hn).not_mem, List.filter_eq_self]
    intro n hn
    simpa using (h n hn).ne_nil

theorem foldl_step_names {names : List Text} (here : Place) (h : ∀ n ∈ names, IsName n) :
    names.foldl step here = here ++ names := by
  induction names generalizing here with
  | nil => simp
  | cons name names ih =>
    have hname := h name (List.mem_cons_self ..)
    rw [List.foldl_cons, hname.step_eq, ih _ fun n hn => h n (List.mem_cons_of_mem _ hn)]
    simp

namespace Spells

variable {path : Text} {place : Place}

theorem isAbsolute_eq (h : Spells path place) : isAbsolute path = true := by
  rcases h.eq with rfl | rfl <;> rfl

theorem filter_splitOn (h : Spells path place) :
    (splitOn '/' path).filter (· ≠ []) = place := by
  rcases h.eq with rfl | rfl
  · simpa [splitOn] using filter_splitOn_joinWith h.names
  · simpa [splitOn] using filter_splitOn_joinWith h.names

theorem destination_eq (h : Spells path place) (current : Place) :
    destination current path = place := by
  rw [destination, h.filter_splitOn, if_pos h.isAbsolute_eq, foldl_step_names [] h.names,
    List.nil_append]

theorem parts_eq (h : Spells path place) : parts path = place := by
  have hfilter : parts path = ((splitOn '/' path).filter (· ≠ [])).filter (· ≠ ['.']) := by
    rw [parts, List.filter_filter]
    refine List.filter_congr fun p _ => ?_
    simp [Bool.and_comm]
  rw [hfilter, h.filter_splitOn, List.filter_eq_self]
  intro n hn
  simpa using (h.names n hn).ne_dot

/-- The names start with no slash, so no more than those in front are counted as leading ones. -/
theorem head?_names (h : Spells path place) : (joinWith ['/'] place).head? ≠ some '/' := by
  cases place with
  | nil => simp [joinWith]
  | cons name names =>
    have hname := h.names name (List.mem_cons_self ..)
    obtain ⟨c, rest, rfl⟩ := List.exists_cons_of_ne_nil hname.ne_nil
    have hc : c ≠ '/' := by
      rintro rfl
      exact hname.not_mem (List.mem_cons_self ..)
    cases names <;> simpa [joinWith] using hc

theorem rootOf_append (h : Spells path place) : rootOf path ++ joinWith ['/'] place = path := by
  have hhead := h.head?_names
  rcases h.eq with rfl | rfl
  · rw [rootOf_one hhead]
    rfl
  · rw [rootOf_two hhead]
    rfl

theorem normalize_eq (h : Spells path place) : normalize path = path := by
  have hparts : normalParts path = place :=
    (normalParts_eq h.isAbsolute_eq []).1.trans (h.destination_eq [])
  have hne : path ≠ [] := by
    rintro rfl
    exact absurd h.isAbsolute_eq (by simp [isAbsolute])
  unfold normalize
  rw [hparts, h.rootOf_append]
  simp [hne]

end Spells

theorem spells_normalize {path : Text} (h : isAbsolute path = true) (current : Place) :
    Spells (normalize path) (destination current path) := by
  obtain ⟨hparts, hnames⟩ := normalParts_eq h current
  have hnormal : normalize path = rootOf path ++ joinWith ['/'] (destination current path) := by
    unfold normalize
    rw [hparts]
    rcases rootOf_of_isAbsolute h with hroot | hroot <;> simp [hroot]
  rw [hparts] at hnames
  refine ⟨?_, hnames⟩
  rw [hnormal]
  rcases rootOf_of_isAbsolute h with hroot | hroot
  · exact .inl (by rw [hroot]; rfl)
  · exact .inr (by rw [hroot]; rfl)

theorem IsReal.isAbsolute_eq {path : Text} (h : IsReal path) : isAbsolute path = true := by
  have hroot := h.root
  cases path with
  | nil => simp [rootOf] at hroot
  | cons c path =>
    by_cases hc : c = '/'
    · simp [isAbsolute, hc]
    · simp [rootOf, hc] at hroot

theorem IsReal.spells {path : Text} (h : IsReal path) : Spells path (parts path) := by
  have hspells := spells_normalize h.isAbsolute_eq []
  rw [h.normal] at hspells
  exact hspells.parts_eq.symm ▸ hspells

theorem isAbsolute_join {base : Text} (h : isAbsolute base = true) (path : Text) :
    isAbsolute (join base path) = true := by
  have hne : base ≠ [] := by
    rintro rfl
    exact absurd h (by simp [isAbsolute])
  unfold join
  split
  next hpath => exact hpath
  next =>
    split
    next => rw [isAbsolute_append hne, h]
    next => rw [isAbsolute_append hne, h]

theorem basename_append {name : Text} (h : '/' ∉ name) (front : Text) :
    basename (front ++ '/' :: name) = name ∧
      dirname (front ++ '/' :: name) =
        if front.all (· = '/') then front ++ ['/']
        else (front.reverse.dropWhile (· = '/')).reverse := by
  have hreverse : (front ++ '/' :: name).reverse = name.reverse ++ ('/' :: front.reverse) := by simp
  have hname : ∀ c ∈ name.reverse, decide (c ≠ '/') = true := by
    intro c hc
    have hmem := List.mem_reverse.mp hc
    simp only [decide_eq_true_eq]
    rintro rfl
    exact h hmem
  refine ⟨?_, ?_⟩
  · rw [basename, hreverse, List.takeWhile_append_of_pos hname]
    simp
  · unfold dirname
    rw [hreverse, List.dropWhile_append_of_pos hname]
    simp

theorem getLast?_names {place : Place} (h : ∀ n ∈ place, IsName n) (hne : place ≠ []) :
    ∃ c, (joinWith ['/'] place).getLast? = some c ∧ c ≠ '/' := by
  induction place with
  | nil => exact absurd rfl hne
  | cons name names ih =>
    by_cases hlast : names = []
    · subst hlast
      have hname := h name (List.mem_cons_self ..)
      obtain ⟨front, c, rfl⟩ := List.eq_nil_or_concat name |>.resolve_left hname.ne_nil
      refine ⟨c, by simp [joinWith], ?_⟩
      rintro rfl
      exact hname.not_mem (by simp)
    · obtain ⟨c, hc, hslash⟩ := ih (fun n hn => h n (List.mem_cons_of_mem _ hn)) hlast
      refine ⟨c, ?_, hslash⟩
      rw [joinWith_cons _ _ _ hlast, List.getLast?_append, hc]
      rfl

theorem joinWith_concat {names : List Text} (hne : names ≠ []) (name : Text) :
    joinWith ['/'] (names ++ [name]) = joinWith ['/'] names ++ '/' :: name := by
  induction names with
  | nil => exact absurd rfl hne
  | cons n names ih =>
    by_cases hlast : names = []
    · subst hlast
      simp [joinWith]
    · rw [List.cons_append, joinWith_cons _ _ _ (by simp), joinWith_cons _ _ _ hlast, ih hlast]
      simp

theorem parentAndName_append {name : Text} (h : IsName name) (front : Text) :
    parentAndName (front ++ '/' :: name) = (dirname (front ++ '/' :: name), name) := by
  have hbasename := (basename_append h.not_mem front).1
  have hname : name.isEmpty = false := by simp [h.ne_nil]
  simp [parentAndName, hbasename, hname]

theorem Spells.parent {path : Text} {folder : Place} {name : Text}
    (h : Spells path (folder ++ [name])) :
    (parentAndName path).2 = name ∧ Spells (parentAndName path).1 folder := by
  have hname := h.names name (by simp)
  have hfolder : ∀ n ∈ folder, IsName n := fun n hn => h.names n (by simp [hn])
  by_cases htop : folder = []
  · subst htop
    have hjoin : joinWith ['/'] ([] ++ [name]) = name := rfl
    have heq := h.eq
    rw [hjoin] at heq
    rcases heq with rfl | rfl
    · have hsplit := parentAndName_append hname []
      rw [(basename_append hname.not_mem []).2, List.nil_append] at hsplit
      rw [hsplit]
      exact ⟨rfl, .inl rfl, hfolder⟩
    · have hsplit := parentAndName_append hname ['/']
      rw [(basename_append hname.not_mem ['/']).2, List.singleton_append] at hsplit
      rw [hsplit]
      exact ⟨rfl, .inr rfl, hfolder⟩
  · obtain ⟨c, hlast, hc⟩ := getLast?_names hfolder htop
    have hkeep : ∀ lead : Text,
        parentAndName (lead ++ joinWith ['/'] (folder ++ [name])) =
          (lead ++ joinWith ['/'] folder, name) := by
      intro lead
      obtain ⟨front, hfront⟩ := List.getLast?_eq_some_iff.mp hlast
      rw [joinWith_concat htop, ← List.append_assoc, parentAndName_append hname,
        (basename_append hname.not_mem _).2, hfront]
      simp [hc]
    rcases h.eq with rfl | rfl
    · have heq := hkeep ['/']
      simp only [List.singleton_append] at heq
      rw [heq]
      exact ⟨rfl, .inl rfl, hfolder⟩
    · have heq := hkeep ['/', '/']
      simp only [List.cons_append, List.nil_append] at heq
      rw [heq]
      exact ⟨rfl, .inr rfl, hfolder⟩

theorem Spells.parent_root {path : Text} (h : Spells path []) : (parentAndName path).2 = [] := by
  rcases h.eq with rfl | rfl <;> decide

end CodeGraft.Path
