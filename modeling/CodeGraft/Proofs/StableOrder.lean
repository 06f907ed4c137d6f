import CodeGraft.Proofs.RefusedEdits
import Mathlib.Data.List.Nodup

/-!
# Edits one by one

All edits of a list refer to the same text, but they can be spliced into it one after another, if
the last one in the text comes first: what stands in front of an edit is then still as it was. The
order of the list matters only for insertions at one offset.
-/

namespace CodeGraft

namespace Edit

variable {text result : Text} {reached : Nat} {edits edits' ordered ordered' : List Edit}

/-! ### The stable order -/

/-- Whether an edit replaces the stretch between two offsets. -/
def covers (start stop : Int) (e : Edit) : Bool := e.start = start && e.stop = stop

theorem covers_iff {start stop : Int} {e : Edit} :
    e.covers start stop = true ↔ e.start = start ∧ e.stop = stop := by
  simp [covers]

theorem covers_self (e : Edit) : e.covers e.start e.stop = true := by
  simp [covers]

/-- The edits by start and then by end, where those that share both keep their order. -/
structure SortsTo (edits ordered : List Edit) : Prop where
  inOrder : ordered.Pairwise fun a b => a.start < b.start ∨ (a.start = b.start ∧ a.stop ≤ b.stop)
  stable : ∀ start stop, ordered.filter (covers start stop) = edits.filter (covers start stop)

/-- What stands in order among the edits stands in the same order among the sorted ones. -/
theorem filter_sorted {p : Edit → Bool}
    (h : (edits.filter p).Pairwise fun a b => a.precedes b = true) :
    (sorted edits).filter p = edits.filter p := by
  have hsub : (edits.filter p).Sublist (sorted edits) :=
    List.sublist_mergeSort precedes_trans precedes_total h List.filter_sublist
  have hkept : (edits.filter p).Sublist ((sorted edits).filter p) := by
    have hfiltered := hsub.filter p
    simpa only [List.filter_filter, Bool.and_self] using hfiltered
  exact (hkept.eq_of_length ((sorted_perm edits).filter p).length_eq.symm).symm

theorem sortsTo_sorted (edits : List Edit) : SortsTo edits (sorted edits) := by
  refine ⟨(sorted_pairwise edits).imp precedes_iff.mp, ?_⟩
  intro start stop
  apply filter_sorted
  rw [List.pairwise_iff_forall_sublist]
  intro a b hsub
  have ha : a ∈ edits.filter (covers start stop) := hsub.subset (by simp)
  have hb : b ∈ edits.filter (covers start stop) := hsub.subset (by simp)
  rw [List.mem_filter, covers_iff] at ha hb
  rw [precedes_iff]
  omega

theorem SortsTo.mem_iff (h : SortsTo edits ordered) (e : Edit) : e ∈ ordered ↔ e ∈ edits := by
  have hrange := h.stable e.start e.stop
  have hmem : e ∈ ordered.filter (covers e.start e.stop) ↔
      e ∈ edits.filter (covers e.start e.stop) := by rw [hrange]
  simpa [covers_self] using hmem

theorem covers_head {a b : Edit} {as bs : List Edit} (h : SortsTo edits (a :: as))
    (h' : SortsTo edits (b :: bs)) : b.covers a.start a.stop = true := by
  have ha := (h'.mem_iff a).mpr ((h.mem_iff a).mp (List.mem_cons_self ..))
  have hb := (h.mem_iff b).mpr ((h'.mem_iff b).mp (List.mem_cons_self ..))
  have hab := (List.pairwise_cons.mp h.inOrder).1
  have hba := (List.pairwise_cons.mp h'.inOrder).1
  rw [covers_iff]
  rcases List.mem_cons.mp ha with heq | ha
  · subst heq
    exact ⟨rfl, rfl⟩
  rcases List.mem_cons.mp hb with heq | hb
  · subst heq
    exact ⟨rfl, rfl⟩
  have hle := hab b hb
  have hle' := hba a ha
  omega

theorem SortsTo.unique (h : SortsTo edits ordered) (h' : SortsTo edits ordered') :
    ordered = ordered' := by
  induction ordered generalizing edits ordered' with
  | nil =>
    cases ordered' with
    | nil => rfl
    | cons b bs =>
      have hb := (h.mem_iff b).mpr ((h'.mem_iff b).mp (List.mem_cons_self ..))
      cases hb
  | cons a as ih =>
    cases ordered' with
    | nil =>
      have ha := (h'.mem_iff a).mpr ((h.mem_iff a).mp (List.mem_cons_self ..))
      cases ha
    | cons b bs =>
      have hhead := covers_head h h'
      have hrange := (h.stable a.start a.stop).trans (h'.stable a.start a.stop).symm
      rw [List.filter_cons_of_pos (covers_self a), List.filter_cons_of_pos hhead] at hrange
      have hab : a = b := (List.cons.inj hrange).1
      subst hab
      have htail : SortsTo as as := ⟨(List.pairwise_cons.mp h.inOrder).2, fun _ _ => rfl⟩
      have htail' : SortsTo as bs := by
        refine ⟨(List.pairwise_cons.mp h'.inOrder).2, ?_⟩
        intro start stop
        have hstable := (h'.stable start stop).trans (h.stable start stop).symm
        by_cases hcovers : a.covers start stop = true
        · rw [List.filter_cons_of_pos hcovers, List.filter_cons_of_pos hcovers] at hstable
          exact (List.cons.inj hstable).2
        · rwa [List.filter_cons_of_neg hcovers, List.filter_cons_of_neg hcovers] at hstable
      rw [ih htail htail']

theorem sortsTo_iff : SortsTo edits ordered ↔ ordered = sorted edits := by
  constructor
  · intro h
    exact h.unique (sortsTo_sorted edits)
  · intro h
    rw [h]
    exact sortsTo_sorted edits

/-- The edits sorted, known by a list of them that is in order and keeps the order of those that
share their range. -/
theorem sorted_eq_of_stable (hperm : ordered.Perm edits)
    (hordered : ordered.Pairwise fun a b => a.precedes b = true)
    (hstable : ∀ e ∈ edits,
      ordered.filter (covers e.start e.stop) = edits.filter (covers e.start e.stop)) :
    sorted edits = ordered := by
  refine (sortsTo_iff.mp ⟨hordered.imp precedes_iff.mp, ?_⟩).symm
  intro start stop
  by_cases hsome : ∃ e ∈ edits, e.covers start stop = true
  · obtain ⟨e, he, hcovers⟩ := hsome
    obtain ⟨rfl, rfl⟩ := covers_iff.mp hcovers
    exact hstable e he
  · have hnone : ∀ e ∈ edits, ¬e.covers start stop = true :=
      fun e he hcovers => hsome ⟨e, he, hcovers⟩
    rw [List.filter_eq_nil_iff.mpr hnone,
      List.filter_eq_nil_iff.mpr fun e he => hnone e (hperm.mem_iff.mp he)]

theorem sorted_eq_of_lt (hperm : ordered.Perm edits)
    (hlt : ordered.Pairwise fun a b => a.start < b.start) : sorted edits = ordered := by
  have hstarts : (ordered.map (·.start)).Nodup :=
    (List.pairwise_map.mpr hlt).imp Int.ne_of_lt
  have hordered : ordered.Pairwise fun a b => a.precedes b = true :=
    hlt.imp fun h => precedes_iff.mpr (Or.inl h)
  refine ((sorted_perm edits).trans hperm.symm).eq_of_pairwise ?_ (sorted_pairwise edits) hordered
  intro a b ha hb hab hba
  rw [precedes_iff] at hab hba
  exact List.inj_on_of_nodup_map hstarts (hperm.mem_iff.mpr (mem_sorted.mp ha)) hb (by omega)

def splice (e : Edit) (text : Text) : Text :=
  text.take e.start.toNat ++ e.replacement ++ text.drop e.stop.toNat

theorem foldr_splice (h : InOrder text reached edits) :
    edits.foldr splice text =
      text.take reached ++ weave (gaps text reached edits) (edits.map (·.replacement)) := by
  induction edits generalizing reached with
  | nil => simp [gaps, weave]
  | cons e edits ih =>
    have hhead := h.head
    have hin := inRange_iff.mp (h.inRange e (List.mem_cons_self ..))
    have hstop : (text.take e.stop.toNat).length = e.stop.toNat := by
      rw [List.length_take]
      omega
    have hfront : text.take reached ++ Text.slice text reached e.start.toNat =
        text.take e.start.toNat := by
      conv => rhs; rw [← List.take_append_drop reached (text.take e.start.toNat)]
      rw [List.take_take, Nat.min_eq_left hhead.1, Text.slice]
    rw [List.foldr_cons, ih h.tail, splice, List.take_append_of_le_length (by omega),
      List.take_take, Nat.min_eq_left hhead.2, List.drop_left' hstop, ← hfront, List.map_cons,
      gaps, weave]
    simp only [List.append_assoc]

theorem apply_eq_foldr_splice (h : apply text edits = .ok result) :
    result = (sorted edits).foldr splice text := by
  have happlicable := exists_apply_iff.mp ⟨result, h⟩
  rw [apply_eq_weave happlicable] at h
  rw [foldr_splice happlicable.inOrder, ← Except.ok.inj h, List.take_zero, List.nil_append]

theorem length_filter_covers_le {start stop : Int} (h : Applicable text edits)
    (hne : start ≠ stop) : (edits.filter (covers start stop)).length ≤ 1 := by
  have hdisjoint := h.disjoint.sublist (List.filter_sublist (p := covers start stop))
  match hfilter : edits.filter (covers start stop) with
  | [] => simp
  | [e] => simp
  | a :: b :: rest =>
    have ha : a ∈ edits.filter (covers start stop) := by simp [hfilter]
    have hb : b ∈ edits.filter (covers start stop) := by simp [hfilter]
    rw [List.mem_filter, covers_iff] at ha hb
    rw [hfilter] at hdisjoint
    have hno := overlaps_eq_false_iff.mp ((List.pairwise_cons.mp hdisjoint).1 b (by simp))
    have hin := inRange_iff.mp (h.inRange a ha.1)
    omega

theorem eq_of_perm_of_length_le {l l' : List Edit} (h : l'.Perm l) (hle : l.length ≤ 1) :
    l' = l := by
  match l with
  | [] => exact h.eq_nil
  | [e] => exact h.eq_singleton

/-- Lists of edits that differ in their order only are sorted alike, if insertions at one offset
stand in the same order in both. -/
theorem sorted_eq_of_perm (h : Applicable text edits) (hperm : edits'.Perm edits)
    (hinserts : ∀ offset,
      edits'.filter (covers offset offset) = edits.filter (covers offset offset)) :
    sorted edits' = sorted edits := by
  have hsorts := sortsTo_sorted edits'
  refine sortsTo_iff.mp ⟨hsorts.inOrder, ?_⟩
  intro start stop
  rw [hsorts.stable]
  by_cases heq : start = stop
  · rw [heq]
    exact hinserts stop
  · exact eq_of_perm_of_length_le (hperm.filter _) (length_filter_covers_le h heq)

/-- Edits that can be applied have the same effect as splicing them into the text one by one, from
the last to the first by start and end. Any list of the same edits can be applied and has that effect
as well, if it keeps the order of the insertions at each offset. -/
theorem apply_splices_each (h : apply text edits = .ok result) :
    (∃ ordered, SortsTo edits ordered ∧ result = ordered.foldr splice text) ∧
      ∀ edits' : List Edit, edits'.Perm edits →
        (∀ offset, edits'.filter (covers offset offset) = edits.filter (covers offset offset)) →
        apply text edits' = .ok result := by
  refine ⟨⟨sorted edits, sortsTo_sorted edits, apply_eq_foldr_splice h⟩, ?_⟩
  intro edits' hperm hinserts
  have happlicable := exists_apply_iff.mp ⟨result, h⟩
  rw [← h, apply_eq_weave (happlicable.perm hperm), apply_eq_weave happlicable,
    sorted_eq_of_perm happlicable hperm hinserts]

/-- Two insertions at the start of a replaced stretch and at the end of another one. -/
theorem apply_splices_each_of_touching :
    let edits : List Edit := [⟨0, 1, "W"⟩, ⟨1, 1, "Y"⟩, ⟨1, 1, "Z"⟩, ⟨1, 2, "X"⟩]
    apply "abc" edits = .ok "WYZXc" ∧
      (∃ ordered, SortsTo edits ordered ∧ ("WYZXc" : Text) = ordered.foldr splice "abc") ∧
      apply "abc" [⟨1, 2, "X"⟩, ⟨1, 1, "Y"⟩, ⟨0, 1, "W"⟩, ⟨1, 1, "Z"⟩] = .ok "WYZXc" := by
  intro edits
  have happly : apply "abc" edits = .ok "WYZXc" := by
    have hsorted : sorted edits = edits := List.mergeSort_of_pairwise (by decide +kernel)
    rw [apply, hsorted]
    rfl
  obtain ⟨hsplices, hpermuted⟩ := apply_splices_each happly
  refine ⟨happly, hsplices, hpermuted _ (by decide +kernel) ?_⟩
  intro offset
  by_cases hoffset : offset = 1
  · rw [hoffset]
    decide +kernel
  · have hne : ¬(1 : Int) = offset := fun heq => hoffset heq.symm
    simp [edits, covers, hne]

end Edit

end CodeGraft
