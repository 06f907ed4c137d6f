import CodeGraft.Machine.Disk

/-!
# Places and what changes there

A path that can be walked leads to a place that is known without the disk. Files are written,
removed and read at places; folders stay where they are, so a path that could be walked can be
walked ever after. What an operation leaves alone is said by the places that it touches.
-/

namespace CodeGraft.Disk

open Text

/-! ### Where paths lead -/

/-- The place that a path leads to if it can be walked. -/
def destination (current : Place) (path : Text) : Place :=
  ((splitOn '/' path).filter (· ≠ [])).foldl step (if Path.isAbsolute path then [] else current)

theorem eq_of_walk {d : Disk} {here place : Place} {parts : List Text}
    (h : d.walk here parts = .ok place) : place = parts.foldl step here := by
  induction parts generalizing here with
  | nil =>
    cases h
    rfl
  | cons part parts ih =>
    rw [walk] at h
    split at h
    · cases h
    · cases h
    · split at h
      · cases h
      · exact ih h

theorem eq_of_placeOf {d : Disk} {path : Text} {place : Place} (h : d.placeOf path = .ok place) :
    place = destination d.current path := by
  unfold placeOf at h
  split at h
  · cases h
  · split at h
    · cases h
    · exact eq_of_walk h

/-- A name that leads from a folder to what is in it. -/
structure IsName (name : Text) : Prop where
  ne_nil : name ≠ []
  not_mem : '/' ∉ name
  ne_dot : name ≠ ['.']
  ne_dots : name ≠ ['.', '.']

theorem isName_iff {name : Text} :
    IsName name ↔ name ≠ [] ∧ '/' ∉ name ∧ name ≠ ['.'] ∧ name ≠ ['.', '.'] :=
  ⟨fun h => ⟨h.ne_nil, h.not_mem, h.ne_dot, h.ne_dots⟩,
    fun ⟨hne, hmem, hdot, hdots⟩ => ⟨hne, hmem, hdot, hdots⟩⟩

instance (name : Text) : Decidable (IsName name) := decidable_of_iff _ isName_iff.symm

theorem IsName.not_isAbsolute {name : Text} (h : IsName name) : Path.isAbsolute name = false := by
  cases name with
  | nil => exact absurd rfl h.ne_nil
  | cons c name =>
    have hc := h.not_mem
    simp only [List.mem_cons, not_or] at hc
    simpa [Path.isAbsolute] using Ne.symm hc.1

theorem IsName.step_eq {name : Text} (h : IsName name) (here : Place) :
    step here name = here ++ [name] := by
  rw [step, if_neg h.ne_dot, if_neg h.ne_dots]

theorem IsName.filter_splitOn {name : Text} (h : IsName name) :
    (splitOn '/' name).filter (· ≠ []) = [name] := by
  rw [splitOn_of_not_mem h.not_mem]
  simp [h.ne_nil]

theorem isAbsolute_append {folder : Text} (h : folder ≠ []) (tail : Text) :
    Path.isAbsolute (folder ++ tail) = Path.isAbsolute folder := by
  cases folder with
  | nil => exact absurd rfl h
  | cons c folder => rfl

theorem IsName.join_eq {name : Text} (h : IsName name) {folder : Text} (hfolder : folder ≠ []) :
    Path.join folder name =
      folder ++ (if folder.getLast? = some '/' then name else '/' :: name) := by
  rw [Path.join, if_neg (by simp [h.not_isAbsolute])]
  by_cases hslash : folder.getLast? = some '/'
  · rw [if_pos (by simp [hslash]), if_pos hslash]
  · rw [if_neg (by simp [hfolder, hslash]), if_neg hslash]

theorem IsName.nil_join {name : Text} (h : IsName name) : Path.join [] name = name := by
  rw [Path.join, if_neg (by simp [h.not_isAbsolute]), if_pos (by simp), List.nil_append]

theorem IsName.isAbsolute_join {name : Text} (h : IsName name) (folder : Text) :
    Path.isAbsolute (Path.join folder name) = Path.isAbsolute folder := by
  by_cases hempty : folder = []
  · subst hempty
    rw [h.nil_join]
    exact h.not_isAbsolute
  · rw [h.join_eq hempty]
    exact isAbsolute_append hempty _

theorem IsName.parts_join {name : Text} (h : IsName name) (folder : Text) :
    (splitOn '/' (Path.join folder name)).filter (· ≠ []) =
      (splitOn '/' folder).filter (· ≠ []) ++ [name] := by
  by_cases hempty : folder = []
  · subst hempty
    rw [h.nil_join]
    simpa [splitOn] using h.filter_splitOn
  rw [h.join_eq hempty]
  by_cases hslash : folder.getLast? = some '/'
  · rw [if_pos hslash]
    obtain ⟨front, rfl⟩ := List.getLast?_eq_some_iff.mp hslash
    rw [List.append_assoc, List.singleton_append, splitOn_append, splitOn_append,
      List.filter_append, List.filter_append, h.filter_splitOn]
    simp [splitOn]
  · rw [if_neg hslash, splitOn_append, List.filter_append, h.filter_splitOn]

theorem IsName.destination_join {name : Text} (h : IsName name) (current : Place)
    (folder : Text) :
    destination current (Path.join folder name) = destination current folder ++ [name] := by
  rw [destination, h.parts_join, h.isAbsolute_join, List.foldl_append, List.foldl_cons,
    List.foldl_nil, h.step_eq, destination]

theorem IsName.eq_of_join {name other : Text} (h : IsName name) (h' : IsName other)
    {folder : Text} (heq : Path.join folder name = Path.join folder other) : name = other := by
  have hplaces := congrArg (destination []) heq
  rw [h.destination_join, h'.destination_join] at hplaces
  simpa using hplaces

theorem IsName.join_ne_nil {name : Text} (h : IsName name) (folder : Text) :
    Path.join folder name ≠ [] := by
  intro heq
  have hparts := h.parts_join folder
  rw [heq] at hparts
  simp [splitOn] at hparts

theorem IsName.namesFolder_join {name : Text} (h : IsName name) (folder : Text) :
    namesFolder (Path.join folder name) = false := by
  have hlast : (Path.join folder name).getLast? = name.getLast? := by
    rw [Path.join, if_neg (by simp [h.not_isAbsolute])]
    obtain ⟨front, last, rfl⟩ := List.eq_nil_or_concat name |>.resolve_left h.ne_nil
    split <;> simp [List.getLast?_append, List.getLast?_cons]
  have hslash : name.getLast? ≠ some '/' := by
    intro heq
    exact h.not_mem (List.mem_of_getLast? heq)
  simp [namesFolder, hlast, hslash]

theorem getLast?_dropWhile_slash (home : Text) :
    (home.reverse.dropWhile (· = '/')).reverse.getLast? ≠ some '/' := by
  rw [List.getLast?_reverse]
  intro hslash
  have hnot := List.head?_dropWhile_not (· = '/') home.reverse
  rw [hslash] at hnot
  simp at hnot

/-- Where the first slash of a text comes first, what is put behind it changes nothing. -/
theorem takeWhile_append_of_slash {front tail : Text} (h : '/' ∈ front ∨ tail.head? = some '/') :
    (front ++ tail).takeWhile (· ≠ '/') = front.takeWhile (· ≠ '/') ∧
      (front ++ tail).dropWhile (· ≠ '/') = front.dropWhile (· ≠ '/') ++ tail := by
  induction front with
  | nil =>
    obtain ⟨tail, rfl⟩ := List.head?_eq_some_iff.mp (h.resolve_left List.not_mem_nil)
    simp
  | cons c front ih =>
    by_cases hc : c = '/'
    · simp [hc]
    · have hrest := ih (h.imp_left fun hmem => (List.mem_cons.mp hmem).resolve_left (Ne.symm hc))
      simpa [hc] using hrest

theorem tildeName?_append {c : Char} {front tail : Text}
    (h : '/' ∈ front ∨ tail.head? = some '/') :
    Path.tildeName? (c :: front ++ tail) = Path.tildeName? (c :: front) := by
  rw [List.cons_append]
  unfold Path.tildeName?
  split
  next heq =>
    obtain ⟨rfl, rfl⟩ := List.cons.inj heq
    simp only [(takeWhile_append_of_slash h).1]
  next hother =>
    split
    next heq =>
      obtain ⟨rfl, rfl⟩ := List.cons.inj heq
      exact absurd rfl (hother _)
    next => rfl

theorem IsName.putHome_join {name : Text} (h : IsName name) (home : Text) {folder : Text}
    (hfolder : folder ≠ []) :
    Path.putHome home (Path.join folder name) = Path.join (Path.putHome home folder) name := by
  have hroot := getLast?_dropWhile_slash home
  rw [h.join_eq hfolder]
  unfold Path.putHome
  generalize (home.reverse.dropWhile (· = '/')).reverse = root at hroot
  have hparts := List.takeWhile_append_dropWhile (p := (· ≠ '/')) (l := folder)
  have htail : '/' ∈ folder ∨
      (if folder.getLast? = some '/' then name else '/' :: name).head? = some '/' := by
    by_cases hlast : folder.getLast? = some '/'
    · exact .inl (List.mem_of_getLast? hlast)
    · exact .inr (by rw [if_neg hlast, List.head?_cons])
  rw [(takeWhile_append_of_slash htail).2]
  have hfront : ∀ c ∈ folder.takeWhile (· ≠ '/'), c ≠ '/' := fun c hc => by
    simpa using List.all_eq_true.mp List.all_takeWhile c hc
  generalize folder.takeWhile (· ≠ '/') = front at hparts hfront
  generalize folder.dropWhile (· ≠ '/') = behind at hparts
  cases behind with
  | nil =>
    -- no slash stands in the folder's path, so one is put in front of the name
    rw [List.append_nil] at hparts
    rw [← hparts, if_neg fun hlast => hfront _ (List.mem_of_getLast? hlast) rfl]
    by_cases hempty : root = []
    · subst hempty
      simp [h.join_eq]
    · simp [hempty, h.join_eq, hroot]
  | cons c behind =>
    have hlast : folder.getLast? = (root ++ c :: behind).getLast? := by
      rw [← hparts]
      simp [List.getLast?_append, List.getLast?_cons]
    have hne : root ++ c :: behind ≠ [] := by simp
    rw [hlast]
    simp only [List.cons_append, List.isEmpty_iff, List.append_eq_nil_iff, reduceCtorEq, and_false,
      if_false, h.join_eq hne, List.append_assoc]

theorem exists_of_walk_append {d : Disk} {here place : Place} {front : List Text} {part : Text}
    (h : d.walk here (front ++ [part]) = .ok place) :
    ∃ folder, d.walk here front = .ok folder ∧ d.node? folder = some .folder := by
  induction front generalizing here with
  | nil =>
    rw [List.nil_append, walk] at h
    split at h
    · cases h
    · cases h
    next hfolder => exact ⟨here, rfl, hfolder⟩
  | cons first front ih =>
    rw [List.cons_append, walk] at h
    rw [walk]
    split at h
    · cases h
    · cases h
    next hfolder =>
      split at h
      · cases h
      next hlength =>
        rw [if_neg hlength]
        exact ih h

theorem length_encode_le_join (folder name : Text) (h : Path.isAbsolute name = false) :
    (Utf8.encode folder).length ≤ (Utf8.encode (Path.join folder name)).length := by
  rw [Path.join, if_neg (by simp [h])]
  split <;> simp [Utf8.encode]

theorem IsName.folder_of_placeOf {d : Disk} {name folder : Text} {place : Place} (h : IsName name)
    (hfolder : folder ≠ []) (hplace : d.placeOf (Path.join folder name) = .ok place) :
    d.placeOf folder = .ok (destination d.current folder) ∧ d.nodeAt folder = .ok .folder := by
  unfold placeOf at hplace
  split at hplace
  · cases hplace
  split at hplace
  · cases hplace
  next hlength =>
    rw [h.parts_join, h.isAbsolute_join] at hplace
    obtain ⟨found, hwalk, hnode⟩ := exists_of_walk_append hplace
    have hle := length_encode_le_join folder name h.not_isAbsolute
    have hfound : d.placeOf folder = .ok found := by
      rw [placeOf, if_neg hfolder, if_neg (by omega), hwalk]
    refine ⟨?_, ?_⟩
    · rw [hfound, eq_of_placeOf hfound]
    · simp [nodeAt, hfound, hnode, bind, Except.bind, pure, Except.pure]

/-- A disk has become another one. Folders have stayed, new ones may have come, and all else has
happened at the touched places. -/
structure Evolves (touched : Place → Prop) (d d' : Disk) : Prop where
  current_eq : d'.current = d.current
  folders : ∀ place, d.node? place = some .folder → d'.node? place = some .folder
  others : ∀ place, ¬ touched place →
    d'.node? place = d.node? place ∨ (d.node? place = none ∧ d'.node? place = some .folder)

namespace Evolves

variable {touched touched' : Place → Prop} {d d' d'' : Disk}

theorem refl (touched : Place → Prop) (d : Disk) : Evolves touched d d :=
  ⟨rfl, fun _ h => h, fun _ _ => .inl rfl⟩

theorem trans (h : Evolves touched d d') (h' : Evolves touched d' d'') :
    Evolves touched d d'' := by
  refine ⟨h'.current_eq.trans h.current_eq, fun p hp => h'.folders p (h.folders p hp), ?_⟩
  intro p hp
  rcases h.others p hp with heq | ⟨hnone, hfolder⟩
  · rcases h'.others p hp with heq' | ⟨hnone', hfolder'⟩
    · exact .inl (heq'.trans heq)
    · exact .inr ⟨heq ▸ hnone', hfolder'⟩
  · exact .inr ⟨hnone, h'.folders p hfolder⟩

theorem mono (h : Evolves touched d d') (hsub : ∀ p, touched p → touched' p) :
    Evolves touched' d d' :=
  ⟨h.current_eq, h.folders, fun p hp => h.others p fun ht => hp (hsub p ht)⟩

theorem file (h : Evolves touched d d') {p : Place} (hp : ¬ touched p) {content : Bytes}
    {modified : Instant} (hfile : d.node? p = some (.file content modified)) :
    d'.node? p = some (.file content modified) := by
  rcases h.others p hp with heq | ⟨hnone, -⟩
  · rw [heq, hfile]
  · rw [hnone] at hfile
    cases hfile

theorem file_before (h : Evolves touched d d') {p : Place} (hp : ¬ touched p) {content : Bytes}
    {modified : Instant} (hfile : d'.node? p = some (.file content modified)) :
    d.node? p = some (.file content modified) := by
  rcases h.others p hp with heq | ⟨-, hfolder⟩
  · rw [← heq, hfile]
  · rw [hfolder] at hfile
    cases hfile

theorem walk_eq (h : Evolves touched d d') {here place : Place} {parts : List Text}
    (hwalk : d.walk here parts = .ok place) : d'.walk here parts = .ok place := by
  induction parts generalizing here with
  | nil => exact hwalk
  | cons part parts ih =>
    rw [walk] at hwalk ⊢
    cases hnode : d.node? here with
    | none => simp [hnode] at hwalk
    | some node =>
      cases node with
      | file => simp [hnode] at hwalk
      | folder =>
        simp only [hnode] at hwalk
        simp only [h.folders here hnode]
        split at hwalk
        · cases hwalk
        next hlength =>
          rw [if_neg hlength]
          exact ih hwalk

theorem placeOf_eq (h : Evolves touched d d') {path : Text} {place : Place}
    (hplace : d.placeOf path = .ok place) : d'.placeOf path = .ok place := by
  unfold placeOf at hplace ⊢
  split at hplace
  · cases hplace
  next hempty =>
    split at hplace
    · cases hplace
    next hlength =>
      rw [if_neg hempty, if_neg hlength, h.current_eq]
      exact h.walk_eq hplace

end Evolves

variable {d d' : Disk} {path : Text} {content : Bytes} {now : Instant}

theorem exists_of_nodeAt {node : Node} (h : d.nodeAt path = .ok node) :
    ∃ place, d.placeOf path = .ok place ∧ d.node? place = some node ∧
      (node = .folder ∨ namesFolder path = false) := by
  unfold nodeAt at h
  cases hplace : d.placeOf path with
  | error e => simp [hplace, bind, Except.bind] at h
  | ok place =>
    simp only [hplace, bind, Except.bind] at h
    cases hnode : d.node? place with
    | none => simp [hnode] at h
    | some found =>
      cases found with
      | folder =>
        simp only [hnode] at h
        cases h
        exact ⟨place, rfl, hnode, .inl rfl⟩
      | file content modified =>
        simp only [hnode] at h
        split at h
        · cases h
        next hname =>
          cases h
          exact ⟨place, rfl, hnode, .inr (by simpa using hname)⟩

theorem nodeAt_of_file {place : Place} {modified : Instant} (hplace : d.placeOf path = .ok place)
    (hnode : d.node? place = some (.file content modified)) (hname : namesFolder path = false) :
    d.nodeAt path = .ok (.file content modified) := by
  simp [nodeAt, hplace, hnode, hname, bind, Except.bind, pure, Except.pure]

theorem holds_of_node? {place : Place} {node : Node} (hplace : d.placeOf path = .ok place)
    (hnode : d.node? place = some node) (hname : namesFolder path = false) :
    d.holds path = true := by
  cases node <;>
    simp [holds, nodeAt, hplace, hnode, hname, bind, Except.bind, pure, Except.pure, Except.toOption]

theorem exists_of_holds (h : d.holds path = true) :
    ∃ place node, d.placeOf path = .ok place ∧ d.node? place = some node := by
  unfold holds at h
  cases hat : d.nodeAt path with
  | error e => simp [hat, Except.toOption] at h
  | ok node =>
    obtain ⟨place, hplace, hnode, -⟩ := exists_of_nodeAt hat
    exact ⟨place, node, hplace, hnode⟩

theorem exists_of_read (h : d.read path = .ok content) :
    ∃ place modified, d.placeOf path = .ok place ∧
      d.node? place = some (.file content modified) ∧ namesFolder path = false := by
  unfold read at h
  cases hat : d.nodeAt path with
  | error e => simp [hat, bind, Except.bind] at h
  | ok node =>
    simp only [hat, bind, Except.bind] at h
    cases node with
    | folder => cases h
    | file found modified =>
      cases h
      obtain ⟨place, hplace, hnode, hname⟩ := exists_of_nodeAt hat
      rcases hname with hname | hname
      · cases hname
      · exact ⟨place, modified, hplace, hnode, hname⟩

theorem ne_nil_of_read (h : d.read path = .ok content) : path ≠ [] := by
  rintro rfl
  obtain ⟨place, modified, hplace, -⟩ := exists_of_read h
  cases hplace

theorem read_of_file {place : Place} {modified : Instant} (hplace : d.placeOf path = .ok place)
    (hnode : d.node? place = some (.file content modified)) (hname : namesFolder path = false) :
    d.read path = .ok content := by
  simp [read, nodeAt_of_file hplace hnode hname, bind, Except.bind, pure, Except.pure]

theorem Evolves.read_eq {touched : Place → Prop} (h : Evolves touched d d')
    (hread : d.read path = .ok content) (hpath : ¬ touched (destination d.current path)) :
    d'.read path = .ok content := by
  obtain ⟨place, modified, hplace, hnode, hname⟩ := exists_of_read hread
  rw [← eq_of_placeOf hplace] at hpath
  exact read_of_file (h.placeOf_eq hplace) (h.file hpath hnode) hname

/-- Whether a disk lets a file be written does not depend on the time. -/
theorem isOk_write (d : Disk) (now now' : Instant) (path : Text) (content : Bytes) :
    (d.write now path content).isOk = (d.write now' path content).isOk := by
  unfold write
  cases d.placeOf path with
  | error e => rfl
  | ok place =>
    simp only [bind, Except.bind]
    split <;> rfl

theorem exists_of_write (h : d.write now path content = .ok d') :
    ∃ place, d.placeOf path = .ok place ∧ place ≠ [] ∧ d.node? place ≠ some .folder ∧
      namesFolder path = false ∧ d' = d.put place (.file content now) := by
  unfold write at h
  cases hplace : d.placeOf path with
  | error e => simp [hplace, bind, Except.bind] at h
  | ok place =>
    simp only [hplace, bind, Except.bind] at h
    split at h
    · cases h
    next hfree =>
      cases h
      simp only [Bool.or_eq_true, decide_eq_true_eq, not_or, Bool.not_eq_true] at hfree
      refine ⟨place, rfl, ?_, hfree.2, hfree.1, rfl⟩
      rintro rfl
      exact hfree.2 rfl

theorem evolves_put {place : Place} {node : Node} (hplace : place ≠ [])
    (hnode : d.node? place ≠ some .folder) : Evolves (· = place) d (d.put place node) := by
  refine ⟨rfl, ?_, ?_⟩
  · intro p hp
    have hne : p ≠ place := by
      rintro rfl
      exact hnode hp
    rw [node?_put d node p hplace, if_neg hne, hp]
  · intro p hp
    rw [node?_put d node p hplace, if_neg hp]
    exact .inl rfl

theorem evolves_of_write (h : d.write now path content = .ok d') :
    Evolves (· = destination d.current path) d d' := by
  obtain ⟨place, hplace, hne, hnode, -, rfl⟩ := exists_of_write h
  rw [← eq_of_placeOf hplace]
  exact evolves_put hne hnode

theorem read_of_write (h : d.write now path content = .ok d') : d'.read path = .ok content := by
  have hevolves := evolves_of_write h
  obtain ⟨place, hplace, hne, hnode, hname, rfl⟩ := exists_of_write h
  have hfile : (d.put place (.file content now)).node? place = some (.file content now) := by
    rw [node?_put d _ place hne, if_pos rfl]
  exact read_of_file (hevolves.placeOf_eq hplace) hfile hname

theorem write_of_read {old : Bytes} (h : d.read path = .ok old) (now : Instant) (content : Bytes) :
    ∃ d', d.write now path content = .ok d' := by
  obtain ⟨place, modified, hplace, hnode, hname⟩ := exists_of_read h
  simp [write, hplace, hname, hnode, bind, Except.bind, pure, Except.pure]

theorem exists_of_makeFolder (h : d.makeFolder path = .ok d') :
    ∃ place, d.placeOf path = .ok place ∧ place ≠ [] ∧ d.node? place = none ∧
      d' = d.put place .folder := by
  unfold makeFolder at h
  cases hplace : d.placeOf path with
  | error e => simp [hplace, bind, Except.bind] at h
  | ok place =>
    simp only [hplace, bind, Except.bind] at h
    split at h
    · cases h
    next hfree =>
      cases h
      have hnone : d.node? place = none := by simpa using hfree
      refine ⟨place, rfl, ?_, hnone, rfl⟩
      rintro rfl
      cases hnone

theorem evolves_of_makeFolder (h : d.makeFolder path = .ok d') : Evolves (fun _ => False) d d' := by
  obtain ⟨place, -, hne, hnone, rfl⟩ := exists_of_makeFolder h
  refine ⟨rfl, (evolves_put hne (by simp [hnone])).folders, ?_⟩
  intro p _
  rw [node?_put d _ p hne]
  by_cases hp : p = place
  · rw [if_pos hp, hp]
    exact .inr ⟨hnone, rfl⟩
  · rw [if_neg hp]
    exact .inl rfl

theorem exists_of_remove (h : d.remove path = .ok d') :
    ∃ place old modified, d.placeOf path = .ok place ∧
      d.node? place = some (.file old modified) ∧ d' = d.erase place := by
  unfold remove at h
  cases hat : d.nodeAt path with
  | error e => simp [hat, bind, Except.bind] at h
  | ok node =>
    obtain ⟨place, hplace, hnode, -⟩ := exists_of_nodeAt hat
    simp only [hat, hplace, bind, Except.bind] at h
    cases node with
    | folder => cases h
    | file old modified =>
      cases h
      exact ⟨place, old, modified, hplace, hnode, rfl⟩

theorem evolves_of_remove (h : d.remove path = .ok d') :
    Evolves (· = destination d.current path) d d' := by
  obtain ⟨place, old, modified, hplace, hnode, rfl⟩ := exists_of_remove h
  rw [← eq_of_placeOf hplace]
  have hne : place ≠ [] := by
    rintro rfl
    cases hnode
  refine ⟨rfl, ?_, ?_⟩
  · intro p hp
    have hother : p ≠ place := by
      rintro rfl
      rw [hp] at hnode
      cases hnode
    rw [node?_erase d p hne, if_neg hother, hp]
  · intro p hp
    rw [node?_erase d p hne, if_neg hp]
    exact .inl rfl

end CodeGraft.Disk
