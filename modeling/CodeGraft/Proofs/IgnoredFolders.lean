import CodeGraft.Proofs.Listings
import CodeGraft.Proofs.NormalPaths
import CodeGraft.Proofs.OnMachine

/-!
# Folders that a search leaves out

The folders of the version store and of installed modules are ignored by lines that stand in front
of those of every ignore file. As the last line that fits a path decides, a search finds something
in them only where the ignore file readmits them. How lines are read is left to the machine; all that
is asked of it is that the last line decides, and that a line for a folder fits this folder wherever
it is.
-/

namespace CodeGraft

open Text Dialogue

/-- Whether a name stands for nothing but itself in the line of an ignore file. -/
def isPlainName (name : Text) : Bool :=
  decide (Disk.IsName name) && name.all fun c => c.isAlphanum || c = '_' || c = '.'

def isNegated (line : Text) : Bool := line.head? = some '!'

/-- What is relied on when the lines of an ignore file are read, where `fits` says which paths the
pattern of a line is for. -/
structure ReadsIgnores (test : List Text → Except Fault (Text → Bool)) (fits : Text → Text → Bool) :
    Prop where
  /-- The last line that fits decides: it leaves the path out unless it is negated. -/
  last_decides : ∀ {lines ignores}, test lines = .ok ignores → ∀ path,
    ignores path = (lines.reverse.find? (fits · path)).any fun line => !isNegated line
  /-- A name with a slash behind it fits the folder of that name at any depth, and all below it. -/
  folder_fits : ∀ {name}, isPlainName name = true → ∀ front behind : List Text,
    (∀ n ∈ front ++ behind, Disk.IsName n) →
    fits (name ++ ['/']) (joinWith ['/'] (front ++ [name]) ++ '/' :: joinWith ['/'] behind) = true

def ignoredNames : List Text := List.map String.toList [".git", "node_modules"]

theorem defaultIgnores_eq : defaultIgnores = ignoredNames.map (· ++ ['/']) := by decide

/-- Whether the last line of an ignore file that fits a path readmits it. -/
def readmits (fits : Text → Text → Bool) (lines : List Text) (path : Text) : Bool :=
  (lines.reverse.find? (fits · path)).any isNegated

/-- The default lines leave out the folders that they are for, unless a line behind them readmits
these. -/
theorem ReadsIgnores.ignores_folder {test : List Text → Except Fault (Text → Bool)}
    {fits : Text → Text → Bool} (h : ReadsIgnores test fits) {lines : List Text}
    {ignores : Text → Bool} (htest : test (defaultIgnores ++ lines) = .ok ignores) {name : Text}
    (hname : name ∈ ignoredNames) {front : List Text} (hfront : ∀ n ∈ front, Disk.IsName n)
    (hkept : readmits fits lines (joinWith ['/'] (front ++ [name]) ++ ['/']) = false) :
    ignores (joinWith ['/'] (front ++ [name]) ++ ['/']) = true := by
  have hplain : ∀ n ∈ ignoredNames, isPlainName n = true := by decide
  have hfits := h.folder_fits (hplain name hname) front [] (by simpa using hfront)
  change fits _ (joinWith ['/'] (front ++ [name]) ++ ['/']) = true at hfits
  rw [h.last_decides htest, List.reverse_append, List.find?_append]
  unfold readmits at hkept
  cases hlast : lines.reverse.find? (fits · (joinWith ['/'] (front ++ [name]) ++ ['/'])) with
  | some line =>
    rw [hlast] at hkept
    simpa using hkept
  | none =>
    have hsome : (defaultIgnores.reverse.find?
        (fits · (joinWith ['/'] (front ++ [name]) ++ ['/']))).isSome = true := by
      rw [List.find?_isSome, defaultIgnores_eq]
      exact ⟨name ++ ['/'], List.mem_reverse.mpr (List.mem_map_of_mem hname), hfits⟩
    obtain ⟨line, hline⟩ := Option.isSome_iff_exists.mp hsome
    have hpositive : ∀ line ∈ defaultIgnores, isNegated line = false := by decide
    have hmem := List.mem_reverse.mp (List.mem_of_find?_eq_some hline)
    rw [hline]
    simp [hpositive line hmem]

/-! ### Ignore files on a machine -/

/-- The lines of the first ignore file in one of the folders; none if it cannot be read. -/
def ignoreLinesIn (d : Disk) : (folders : List Text) → List Text
  | [] => []
  | folder :: rest =>
    let path := Path.join folder ignoreFileName
    if d.holds path then
      match World.ask path (d.read path) with
      | .ok content => bareLines (unifyNewlines (Utf8.decodeDropping content))
      | .error _ => []
    else ignoreLinesIn d rest

def ignoreLinesAt (d : Disk) (path : Text) : List Text :=
  let base := Path.absolute ('/' :: joinWith ['/'] d.current) path
  ignoreLinesIn d (Path.upward (if d.isFile base then Path.dirname base else base))

section

variable {step : Step Answer World} [World.Tame step] {world world' : World}

theorem lines_of_goes {folders lines : List Text}
    (h : (ignoreLines folders).Goes step world lines world') :
    lines = ignoreLinesIn world.disk folders ∨ lines = [] := by
  induction folders generalizing world with
  | nil => exact .inl (goes_pure_iff.mp h).1
  | cons folder rest ih =>
    obtain ⟨found, u, hholds, hrest⟩ := goes_bind_iff.mp h
    have hfalters := World.Tame.falters (goes_question_iff.mp hholds)
    have hdisk := hfalters.disk_eq rfl
    obtain rfl : found = world.disk.holds (Path.join folder ignoreFileName) :=
      hfalters.eq_host rfl
    rw [ignoreLinesIn]
    split at hrest
    next hfound =>
      rw [if_pos hfound]
      obtain ⟨r, v, hread, hlines⟩ := goes_bind_iff.mp hrest
      cases r with
      | ok content =>
        obtain ⟨hproper, hcontent⟩ := (World.Tame.falters (goes_question_iff.mp hread)).of_read
        rw [hdisk] at hcontent
        rw [World.ask_eq_ok_iff.mpr ⟨hproper, hcontent⟩]
        exact .inl (goes_pure_iff.mp hlines).1
      | error e =>
        obtain ⟨-, x, -, hpure⟩ := goes_bind_iff.mp hlines
        exact .inr (goes_pure_iff.mp hpure).1
    next hfound =>
      rw [if_neg hfound, ← hdisk]
      exact ih hrest

/-- The test in force at a path is for the default lines, with those of the nearest ignore file
behind them if it can be read and is well-formed. -/
theorem exists_lines_of_goes {path : Text} {ignores : Text → Bool}
    (h : (ignoreTestAt path).run.Goes step world (.ok ignores) world') :
    ∃ lines, (lines = ignoreLinesAt world.disk path ∨ lines = []) ∧
      world.ignoreTest (defaultIgnores ++ lines) = .ok ignores := by
  obtain ⟨current, u, hcurrent, hrest⟩ := goes_lift_bind_run_iff.mp h
  have hcurrent := World.Tame.falters (goes_question_iff.mp hcurrent)
  obtain rfl : current = '/' :: joinWith ['/'] world.disk.current := hcurrent.eq_host rfl
  obtain ⟨isFile, v, hfile, hrest⟩ := goes_lift_bind_run_iff.mp hrest
  have hfile := World.Tame.falters (goes_question_iff.mp hfile)
  have hanswer := hfile.eq_host rfl
  obtain ⟨lines, x, hlines, hrest⟩ := goes_lift_bind_run_iff.mp hrest
  have hx : x.ignoreTest = world.ignoreTest := by
    rw [World.surroundings_of_goes hlines, hfile.surroundings_eq, hcurrent.surroundings_eq]
  have hfound := lines_of_goes hlines
  rw [hanswer, World.host, hfile.disk_eq rfl, hcurrent.disk_eq rfl] at hfound
  rcases goes_tryCatch_run_iff.mp hrest with ⟨t, htest, heq⟩ | ⟨e, y, hfailed, hrest⟩
  · obtain rfl := Except.ok.inj heq
    have hread := (World.Tame.falters (goes_question_iff.mp htest)).eq_host rfl
    exact ⟨lines, hfound, by rw [← hx]; exact hread.symm⟩
  · obtain ⟨⟨⟩, z, hlog, htest⟩ := goes_lift_bind_run_iff.mp hrest
    have hread := (World.Tame.falters (goes_question_iff.mp htest)).eq_host rfl
    have hz : z.ignoreTest = world.ignoreTest := by
      rw [World.surroundings_of_goes hlog, World.surroundings_of_goes hfailed, hx]
    refine ⟨[], .inr rfl, ?_⟩
    rw [← hz, List.append_nil]
    exact hread.symm

theorem exists_way_of_findByName {w : LocalWorkspace} {name path : Text} {found : List Text}
    (h : (w.findByName name).run.Goes step world (.ok found) world') (hpath : path ∈ found) :
    ∃ way node ignores lines, (way, node) ∈ world.disk.below w.base ∧ path = joinWith ['/'] way ∧
      isFound (some ignores) way = true ∧
      (lines = ignoreLinesAt world.disk w.base ∨ lines = []) ∧
      world.ignoreTest (defaultIgnores ++ lines) = .ok ignores := by
  rcases goes_bind_run_iff.mp h with ⟨e, -, heq⟩ | ⟨ignores, u, htest, hrest⟩
  · cases heq
  obtain ⟨lines, hlines, hignores⟩ := exists_lines_of_goes htest
  have hdisk := World.disk_of_still (still_ignoreTestAt _) htest
  rcases goes_bind_run_iff.mp hrest with ⟨e, -, heq⟩ | ⟨all, v, hall, hpure⟩
  · cases heq
  have hanswer : .ok all = World.ask w.base (.ok ((u.disk.below w.base).map fun entry =>
      (entry.1, decide (entry.2 ≠ .folder)))) :=
    (World.Tame.falters (goes_question_iff.mp hall)).eq_host rfl
  obtain ⟨hok, -⟩ := goes_pure_run_iff.mp hpure
  obtain ⟨-, hbelow⟩ := World.ask_eq_ok_iff.mp hanswer.symm
  rw [Except.ok.inj hok, List.mem_mergeSort, List.mem_map] at hpath
  obtain ⟨⟨way, isFile⟩, hway, rfl⟩ := hpath
  obtain ⟨hmem, hkept⟩ := List.mem_filter.mp hway
  rw [← Except.ok.inj hbelow, hdisk] at hmem
  obtain ⟨⟨_, node⟩, hnode, heq⟩ := List.mem_map.mp hmem
  cases heq
  simp only [Bool.and_eq_true] at hkept
  exact ⟨_, node, ignores, lines, hnode, rfl, hkept.2, hlines, hignores⟩

end

theorem not_ignored_of_isFound {ignores : Text → Bool} {front behind : List Text} {folder : Text}
    (h : isFound (some ignores) (front ++ folder :: behind) = true) (hbehind : behind ≠ []) :
    ignores (joinWith ['/'] (front ++ [folder]) ++ ['/']) = false := by
  have hmem : front ++ [folder] ∈ foldersAlong (front ++ folder :: behind) := by
    have hlength := List.length_pos_iff.mpr hbehind
    refine List.mem_map.mpr ⟨front.length + 1, ?_,
      by simp [List.take_append, List.take_of_length_le]⟩
    simp only [List.mem_range'_1, List.length_append, List.length_cons]
    omega
  simp only [isFound, Bool.and_eq_true, List.all_eq_true] at h
  simpa [isSearched] using h.1 _ hmem

/-- No search finds anything below a folder of one of the ignored names, whatever the disk holds and
the ignore file says, unless the last line of the file that fits the folder readmits it. That goes
for machines that falter, too. -/
theorem findByName_skips {step : Step Answer World} [World.Tame step] {w : LocalWorkspace}
    {world world' : World} {fits : Text → Text → Bool} {name path : Text} {found : List Text}
    {front behind : List Text} {folder : Text} (hreads : ReadsIgnores world.ignoreTest fits)
    (hsound : world.disk.Sound)
    (hgoes : (w.findByName name).run.Goes step world (.ok found) world') (hpath : path ∈ found)
    (hparts : splitOn '/' path = front ++ folder :: behind) (hbehind : behind ≠ [])
    (hkept : readmits fits (ignoreLinesAt world.disk w.base)
      (joinWith ['/'] (front ++ [folder]) ++ ['/']) = false) :
    folder ∉ ignoredNames := by
  intro hfolder
  obtain ⟨way, node, ignores, lines, hway, rfl, hfound, hlines, hignores⟩ :=
    exists_way_of_findByName hgoes hpath
  obtain ⟨base, hnode, hplace⟩ := Disk.exists_of_mem_below hway
  obtain ⟨hmem, hne⟩ := (Disk.mem_below_iff hnode hplace).mp hway
  have hnames : ∀ n ∈ way, Disk.IsName n := fun n hn => hsound.names _ hmem n (by simp [hn])
  rw [Path.splitOn_joinWith hne fun n hn => (hnames n hn).not_mem] at hparts
  subst hparts
  have hnegated : readmits fits lines (joinWith ['/'] (front ++ [folder]) ++ ['/']) = false := by
    rcases hlines with rfl | rfl
    · exact hkept
    · rfl
  have hleft := hreads.ignores_folder hignores hfolder
    (fun n hn => hnames n (List.mem_append_left _ hn)) hnegated
  rw [not_ignored_of_isFound hfound hbehind] at hleft
  cases hleft

/-- A way to read ignore files in which all lines but those for folders of plain names fit nothing. -/
def fitsFolder (line path : Text) : Bool :=
  let pattern := if isNegated line then line.tail else line
  pattern.getLast? = some '/' && isPlainName pattern.dropLast &&
    (splitOn '/' path).dropLast.contains pattern.dropLast

def folderTest (lines : List Text) : Except Fault (Text → Bool) :=
  .ok fun path => (lines.reverse.find? (fitsFolder · path)).any fun line => !isNegated line

theorem fitsFolder_plain {name : Text} (h : isPlainName name = true) (path : Text) :
    fitsFolder (name ++ ['/']) path = (splitOn '/' path).dropLast.contains name := by
  have hpositive : isNegated (name ++ ['/']) = false := by
    cases name with
    | nil => rfl
    | cons c name =>
      simp only [isPlainName, List.all_cons, Bool.and_eq_true] at h
      refine decide_eq_false ?_
      rintro ⟨rfl⟩
      exact absurd h.2.1 (by decide)
  simp [fitsFolder, hpositive, h]

theorem readsIgnores_folderTest : ReadsIgnores folderTest fitsFolder := by
  refine ⟨fun {lines ignores} htest path => ?_, fun {name} hplain front behind hnames => ?_⟩
  · rw [← Except.ok.inj htest]
  · have hname : Disk.IsName name := by
      simp only [isPlainName, Bool.and_eq_true, decide_eq_true_eq] at hplain
      exact hplain.1
    have hall : ∀ n ∈ front ++ [name], '/' ∉ n := by
      intro n hn
      rcases List.mem_append.mp hn with hn | hn
      · exact (hnames n (List.mem_append_left _ hn)).not_mem
      · rw [List.mem_singleton.mp hn]
        exact hname.not_mem
    rw [fitsFolder_plain hplain, splitOn_append, Path.splitOn_joinWith (by simp) hall,
      List.dropLast_append_of_ne_nil (splitOn_ne_nil _ _)]
    simp

/-- A machine with a file that has a namesake among the installed modules, where there is another
file too. -/
def installed (ignoreFile : Text) : World where
  ignoreTest := folderTest
  disk :=
    { nodes := [(["ws"], .folder), (["ws", "src"], .folder), (["ws", "node_modules"], .folder),
        (["ws", "src", "a.js"], .file (Utf8.encode "1") ⟨2024, 1, 2, 3, 4, 5, 6⟩),
        (["ws", "node_modules", "a.js"], .file (Utf8.encode "2") ⟨2024, 1, 2, 3, 4, 5, 6⟩),
        (["ws", "node_modules", "b.js"], .file (Utf8.encode "3") ⟨2024, 1, 2, 3, 4, 5, 6⟩),
        (["ws", ".gitignore"], .file (Utf8.encode ignoreFile) ⟨2024, 1, 2, 3, 4, 5, 6⟩)] }
  now := ⟨2024, 1, 2, 3, 4, 5, 6⟩

/-- What is readmitted, and then ignored after all, is left out. -/
theorem findByName_skips_installed :
    let w : LocalWorkspace := { base := "/ws" }
    let world := installed "!node_modules/\nnode_modules/\n"
    ReadsIgnores world.ignoreTest fitsFolder ∧ world.disk.Sound ∧
      (run World.host (w.findByName "a.js").run world).1 = .ok ["src/a.js".toList] ∧
      readmits fitsFolder (ignoreLinesAt world.disk w.base) "src/" = false ∧
      readmits fitsFolder (ignoreLinesAt world.disk w.base) "node_modules/" = false ∧
      "src".toList ∉ ignoredNames := by
  intro w world
  have hsound : world.disk.Sound := ⟨by decide +kernel, by decide +kernel⟩
  have hfound : (run World.host (w.findByName "a.js").run world).1 = .ok ["src/a.js".toList] :=
    eq_ok_of_toOption (by decide +kernel)
  have hgoes : (w.findByName "a.js").run.Goes (Host.steps World.host fun _ _ => true) world
      (.ok ["src/a.js".toList]) (run World.host (w.findByName "a.js").run world).2.1 :=
    goes_steps_iff.mpr ⟨hfound, rfl, throughout_always ..⟩
  have hkept : readmits fitsFolder (ignoreLinesAt world.disk w.base) "src/" = false := by
    decide +kernel
  have hparts : splitOn '/' "src/a.js".toList = [] ++ "src".toList :: ["a.js".toList] := by
    decide +kernel
  exact ⟨readsIgnores_folderTest, hsound, hfound, hkept, by decide +kernel,
    findByName_skips readsIgnores_folderTest hsound hgoes (by simp) hparts (by simp) hkept⟩

/-- A line of the ignore file lets a search into the installed modules. -/
theorem not_findByName_skips :
    ¬ ∀ (w : LocalWorkspace) (world : World) (fits : Text → Text → Bool) (name path : Text)
      (found front behind : List Text) (folder : Text), ReadsIgnores world.ignoreTest fits →
      world.disk.Sound → (run World.host (w.findByName name).run world).1 = .ok found →
      path ∈ found → splitOn '/' path = front ++ folder :: behind → behind ≠ [] →
      folder ∉ ignoredNames := by
  intro h
  have hskips := h { base := "/ws" } (installed "!node_modules/\n") fitsFolder "b.js"
    "node_modules/b.js" ["node_modules/b.js"] [] ["b.js"] "node_modules" readsIgnores_folderTest
    ⟨by decide +kernel, by decide +kernel⟩ (eq_ok_of_toOption (by decide +kernel)) (by simp)
    (by decide +kernel) (by simp)
  exact hskips (by decide)

end CodeGraft
