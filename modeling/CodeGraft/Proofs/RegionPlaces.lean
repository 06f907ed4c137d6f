import CodeGraft.Proofs.FencePlaces
import CodeGraft.Proofs.Splice

/-!
# Where regions stand

The preambles and the codes of the regions of a text are slices of it that come one behind the other,
and the path of a code block is read out of the preamble of its own region. So no path is read out of
the code of an earlier block.
-/

namespace CodeGraft

open Text

/-- A region and the offsets between which its preamble stands. -/
structure Site where
  region : Region
  floor : Nat
  /-- The offset of the line of the opening fence. -/
  lineStart : Nat

namespace Site

/-- The offsets of the preamble and of the code. -/
def ranges (s : Site) : List (Nat × Nat) :=
  [(s.floor, s.lineStart), (s.region.start, s.region.stop)]

/-- Whether the region stands in a text where its offsets say: the preamble ends where the line
begins that is in front of the code. -/
structure StandsIn (text : Text) (s : Site) : Prop where
  floor_le : s.floor ≤ s.lineStart
  preamble_eq : s.region.preamble = slice text s.floor s.lineStart
  start_pos : 0 < s.region.start
  line : IsLine text s.lineStart (s.region.start - 1)
  feed : text[s.region.start - 1]? = some '\n'
  start_le : s.region.start ≤ s.region.stop
  stop_le : s.region.stop ≤ text.length
  code_eq : s.region.code = slice text s.region.start s.region.stop

end Site

/-- Whether every position of one range is in front of every position of another one. -/
def Ahead (a b : Nat × Nat) : Prop :=
  ∀ i j, a.1 ≤ i → i < a.2 → b.1 ≤ j → j < b.2 → i < j

theorem ahead_of_le {a b : Nat × Nat} (h : a.2 ≤ b.1) : Ahead a b := by
  intro i j _ hi hj _
  omega

theorem ahead_of_empty {a : Nat × Nat} (h : a.2 ≤ a.1) (b : Nat × Nat) : Ahead a b := by
  intro i j hi hi' _ _
  omega

namespace Region

variable {text : Text}

theorem codeStop_bounds {closer : Fence} (h : closer.StandsIn text) (start : Nat) :
    start ≤ codeStop text start closer ∧ codeStop text start closer ≤ max closer.lineEnd start := by
  have hline := h.lineStart_le
  have hstop := h.stop_le
  simp only [Fence.stop] at hstop
  simp only [codeStop]
  split
  · omega
  · split
    · split <;> omega
    · omega

def siteBetween (text : Text) (floor : Nat) (opener closer : Fence) : Site :=
  ⟨between text floor opener closer, floor, opener.lineStart⟩

theorem siteBetween_standsIn {floor : Nat} {opener closer : Fence} (hopener : opener.StandsIn text)
    (hcloser : closer.StandsIn text) (hend : opener.lineEnd < text.length)
    (hfloor : floor ≤ opener.lineStart) : (siteBetween text floor opener closer).StandsIn text where
  floor_le := hfloor
  preamble_eq := rfl
  start_pos := Nat.succ_pos _
  line := hopener.line
  feed := (hopener.line.ends.resolve_left (by omega) : _)
  start_le := (codeStop_bounds hcloser _).1
  stop_le := by
    have hstop := (codeStop_bounds hcloser (opener.lineEnd + 1)).2
    have hbound := hcloser.line.stop_le
    simp only [siteBetween, between]
    omega
  code_eq := rfl

theorem exists_sites_ofFences {fences : List Fence} {floor : Nat}
    (hstands : ∀ f ∈ fences, f.StandsIn text) (horder : fences.Pairwise Fence.Precedes)
    (hfloor : ∀ f ∈ fences, f.atLineStart = true → floor ≤ f.lineStart) :
    ∃ sites : List Site, sites.map Site.region = ofFences text floor fences ∧
      (∀ s ∈ sites, s.StandsIn text ∧ floor ≤ s.floor ∧ floor ≤ s.region.start) ∧
      (sites.flatMap Site.ranges).Pairwise Ahead := by
  fun_induction ofFences text floor fences with
  | case1 floor => exact ⟨[], rfl, by simp, List.Pairwise.nil⟩
  | case2 floor opener fences hskip ih =>
    exact ih (fun f hf => hstands f (by simp [hf])) horder.of_cons
      (fun f hf => hfloor f (by simp [hf]))
  | case3 floor opener fences hopens hnone => exact ⟨[], rfl, by simp, List.Pairwise.nil⟩
  | case4 floor opener fences hopens closer rest hcloser ih =>
    simp only [Bool.or_eq_true, Bool.not_eq_true', decide_eq_true_eq, not_or,
      Bool.not_eq_false, not_le] at hopens
    obtain ⟨hstart, hend⟩ := hopens
    obtain ⟨front, rfl⟩ := exists_of_closer? hcloser
    have hbehind : ∀ f ∈ rest, closer.Precedes f :=
      (List.pairwise_cons.mp (List.pairwise_append.mp horder.of_cons).2.1).1
    have hbefore : opener.Precedes closer := (List.pairwise_cons.mp horder).1 closer (by simp)
    have hopener := hstands opener (by simp)
    have hcloses := hstands closer (by simp)
    have hlevel : floor ≤ opener.lineStart := hfloor opener (by simp) hstart
    obtain ⟨sites, hsites, hall, hahead⟩ := ih (fun f hf => hstands f (by simp [hf]))
      (List.pairwise_cons.mp (List.pairwise_append.mp horder.of_cons).2.1).2
      (fun f hf hline => Nat.le_of_lt ((hbehind f hf).line_lt hline))
    have hbounds := codeStop_bounds hcloses (opener.lineEnd + 1)
    have hsite := siteBetween_standsIn hopener hcloses hend hlevel
    have hline := hopener.line.start_le
    have hlines := hbefore.lineEnd_le
    refine ⟨siteBetween text floor opener closer :: sites, by rw [List.map_cons, hsites]; rfl,
      ?_, ?_⟩
    · intro s hs
      rcases List.mem_cons.mp hs with rfl | hs
      · refine ⟨hsite, Nat.le_refl _, ?_⟩
        simp only [siteBetween, between]
        omega
      · obtain ⟨hs, hsfloor, hsstart⟩ := hall s hs
        exact ⟨hs, by omega, by omega⟩
    · -- Whatever comes later begins behind the line of the closing fence, and the code ends in
      -- front of that or is empty.
      have hlater : ∀ b ∈ sites.flatMap Site.ranges, closer.lineEnd ≤ b.1 := by
        intro b hb
        obtain ⟨s, hs, hb⟩ := List.mem_flatMap.mp hb
        obtain ⟨-, hsfloor, hsstart⟩ := hall s hs
        simp only [Site.ranges, List.mem_cons, List.not_mem_nil, or_false] at hb
        rcases hb with rfl | rfl
        · exact hsfloor
        · exact hsstart
      have hcode : ∀ b, closer.lineEnd ≤ b.1 → Ahead (opener.lineEnd + 1,
          codeStop text (opener.lineEnd + 1) closer) b := by
        intro b hb
        by_cases hempty : codeStop text (opener.lineEnd + 1) closer ≤ opener.lineEnd + 1
        · exact ahead_of_empty hempty b
        · exact ahead_of_le (by simp only; omega)
      have hpreamble : ∀ b : Nat × Nat, opener.lineStart ≤ b.1 →
          Ahead (floor, opener.lineStart) b := fun b hb => ahead_of_le hb
      simp only [List.flatMap_cons, Site.ranges, siteBetween, between, List.cons_append,
        List.nil_append]
      refine List.pairwise_cons.mpr ⟨?_, List.pairwise_cons.mpr ⟨?_, hahead⟩⟩
      · intro b hb
        rcases List.mem_cons.mp hb with rfl | hb
        · exact hpreamble _ (by simp only; omega)
        · exact hpreamble b (by have := hlater b hb; omega)
      · exact fun b hb => hcode b (hlater b hb)

end Region

/-! ### Paths -/

theorem withoutBreak_isPrefix (line : Text) : withoutBreak line <+: line := by
  have hcut : ∀ front back : Text, line.reverse = back ++ front → front.reverse <+: line := by
    intro front back h
    refine ⟨back.reverse, ?_⟩
    rw [← List.reverse_append, ← h, List.reverse_reverse]
  simp only [withoutBreak]
  split
  next front h => exact hcut front ['\n', '\r'] h
  next c front _ h =>
    split
    · exact hcut front [c] h
    · exact List.prefix_rfl
  next => exact List.nil_prefix

theorem isInfix_of_mem_bareLines {line text : Text} (h : line ∈ bareLines text) : line <:+: text := by
  obtain ⟨broken, hbroken, rfl⟩ := List.mem_map.mp h
  have hinfix := List.infix_of_mem_flatten hbroken
  rw [brokenLines_flatten] at hinfix
  exact (withoutBreak_isPrefix broken).isInfix.trans hinfix

theorem trim_isInfix (text : Text) : trim text <:+: text :=
  (trimEnd_isPrefix _).isInfix.trans (List.dropWhile_suffix _).isInfix

theorem exists_slice_of_isInfix {part text : Text} {start stop : Nat}
    (h : part <:+: slice text start stop) (hne : part ≠ []) :
    ∃ p q, start ≤ p ∧ p < q ∧ q ≤ stop ∧ part = slice text p q := by
  obtain ⟨front, back, h⟩ := h
  have hpos : 0 < part.length := List.length_pos_iff.mpr hne
  have hlen := congrArg List.length h
  simp only [List.length_append, slice_length] at hlen
  have hle : start ≤ stop := by omega
  have htext : (text.take start ++ front) ++ (part ++ (back ++ text.drop stop)) = text := by
    have hsplit := slice_append_drop text hle
    rw [← h] at hsplit
    conv => rhs; rw [← List.take_append_drop start text, ← hsplit]
    simp
  have hfront : (text.take start ++ front).length = start + front.length := by
    simp
    omega
  have hpart := slice_append_append (text.take start ++ front) part (back ++ text.drop stop)
  rw [htext, hfront] at hpart
  exact ⟨start + front.length, start + front.length + part.length, by omega, by omega, by omega,
    hpart.symm⟩

/-- Whether the path of a block is read out of a region's preamble: it is the trimmed text of a line
that is not blank, and stands between the offsets of the preamble. -/
structure Block.TakesPath (text : Text) (b : Block) (s : Site) : Prop where
  line : ∃ line ∈ bareLines s.region.preamble, isBlankText line = false ∧ b.path = trim line
  mark : '/' ∈ b.path ∨ '.' ∈ b.path
  stands : ∃ p q, s.floor ≤ p ∧ p < q ∧ q ≤ s.lineStart ∧ b.path = slice text p q

theorem Block.takesPath_of_ofRegion {text : Text} {s : Site} (hs : s.StandsIn text) {b : Block}
    (h : Block.ofRegion s.region = .ok b) : b.TakesPath text s := by
  simp only [Block.ofRegion] at h
  split at h
  next hint hhint =>
    split at h
    next hlooks =>
      obtain rfl := Except.ok.inj h
      obtain ⟨line, hfind, rfl⟩ := Option.map_eq_some_iff.mp hhint
      have hline : line ∈ bareLines s.region.preamble := by
        simpa using List.mem_of_find?_eq_some hfind
      have hblank : isBlankText line = false := by simpa using List.find?_some hfind
      refine ⟨⟨line, hline, hblank, rfl⟩, by simpa [looksLikePath] using hlooks, ?_⟩
      refine exists_slice_of_isInfix ?_ (by simp [trim_eq_nil_iff, hblank])
      rw [← hs.preamble_eq]
      exact (trim_isInfix line).trans (isInfix_of_mem_bareLines hline)
    next => cases h
  next => cases h

theorem exists_picked_sites {text : Text} {sites : List Site} (h : ∀ s ∈ sites, s.StandsIn text) :
    ∃ picked, picked.Sublist sites ∧
      List.Forall₂ (fun b s => Block.ofRegion s.region = .ok b ∧ b.TakesPath text s)
        (((sites.map Site.region).map Block.ofRegion).filterMap Except.toOption) picked := by
  induction sites with
  | nil => exact ⟨[], List.Sublist.refl _, .nil⟩
  | cons s sites ih =>
    obtain ⟨picked, hpicked, hblocks⟩ := ih fun s hs => h s (by simp [hs])
    simp only [List.map_cons]
    cases hread : Block.ofRegion s.region with
    | error e => exact ⟨picked, hpicked.cons s, hblocks⟩
    | ok b =>
      have hpath := Block.takesPath_of_ofRegion (h s (by simp)) hread
      exact ⟨s :: picked, hpicked.cons_cons s, .cons ⟨hread, hpath⟩ hblocks⟩

/-- The regions of a text are slices of it, in their order and behind their preambles, and each block
takes its path out of the preamble of its own region. -/
theorem regions_stand_in_order (text : Text) :
    ∃ sites : List Site, sites.map Site.region = Region.all text ∧
      (∀ s ∈ sites, s.StandsIn text) ∧ (sites.flatMap Site.ranges).Pairwise Ahead ∧
      ∃ picked, picked.Sublist sites ∧
        List.Forall₂ (fun b s => Block.ofRegion s.region = .ok b ∧ b.TakesPath text s)
          (blocks text) picked := by
  obtain ⟨sites, hsites, hstands, hahead⟩ := Region.exists_sites_ofFences
    (fun f hf => Fence.standsIn_of_mem_all hf) (Fence.all_pairwise text)
    (fun f _ _ => Nat.zero_le f.lineStart)
  have hpicked := exists_picked_sites fun s hs => (hstands s hs).1
  rw [hsites] at hpicked
  exact ⟨sites, hsites, fun s hs => (hstands s hs).1, hahead, hpicked⟩

end CodeGraft
