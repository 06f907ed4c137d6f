import CodeGraft.Proofs.Places
import Mathlib.Data.List.Nodup
import Mathlib.Data.List.Perm.Subperm

/-!
# Listings of folders

In a sound disk a place holds one thing, and the way to it goes by names. What a folder lists are
then the names of what stands in it, each once.
-/

namespace CodeGraft.Disk

open Text

/-- A disk on which every place holds one thing and is reached by names. -/
structure Sound (d : Disk) : Prop where
  nodup : (d.nodes.map (·.1)).Nodup
  names : ∀ n ∈ d.nodes, ∀ part ∈ n.1, IsName part

variable {d : Disk} {path : Text} {folder place way : Place} {name : Text}

theorem wayFrom?_eq_some_iff :
    wayFrom? folder place = some way ↔ place = folder ++ way ∧ way ≠ [] := by
  induction folder generalizing place with
  | nil =>
    cases place with
    | nil => simp [wayFrom?, eq_comm]
    | cons p place =>
      simp only [wayFrom?, Option.some.injEq, List.nil_append]
      constructor
      · rintro rfl
        exact ⟨rfl, by simp⟩
      · rintro ⟨rfl, -⟩
        rfl
  | cons f folder ih =>
    cases place with
    | nil => simp [wayFrom?]
    | cons p place =>
      simp only [wayFrom?, List.cons_append, List.cons.injEq]
      split
      next hfp => simp [ih, hfp]
      next hfp => simp [Ne.symm hfp]

theorem mem_below_iff (hfolder : d.nodeAt path = .ok .folder) (hplace : d.placeOf path = .ok folder)
    {node : Node} : (way, node) ∈ d.below path ↔ (folder ++ way, node) ∈ d.nodes ∧ way ≠ [] := by
  rw [below, hfolder, hplace]
  simp only [List.mem_filterMap, Option.map_eq_some_iff, wayFrom?_eq_some_iff, Prod.mk.injEq]
  constructor
  · rintro ⟨⟨place, node⟩, hmem, way, ⟨rfl, hway⟩, rfl, rfl⟩
    exact ⟨hmem, hway⟩
  · rintro ⟨hmem, hway⟩
    exact ⟨(folder ++ way, node), hmem, way, ⟨rfl, hway⟩, rfl, rfl⟩

theorem exists_of_mem_below {node : Node} (h : (way, node) ∈ d.below path) :
    ∃ folder, d.nodeAt path = .ok .folder ∧ d.placeOf path = .ok folder := by
  unfold below at h
  split at h
  next folder hfolder hplace => exact ⟨folder, hfolder, hplace⟩
  next => cases h

theorem node?_of_mem (hnodup : (d.nodes.map (·.1)).Nodup) {node : Node}
    (h : (place, node) ∈ d.nodes) (hplace : place ≠ []) : d.node? place = some node := by
  have hsome : (d.nodes.find? (·.1 = place)).isSome := by
    rw [List.find?_isSome]
    exact ⟨_, h, by simp⟩
  obtain ⟨found, hfound⟩ := Option.isSome_iff_exists.mp hsome
  have hkey : found.1 = place := by simpa using List.find?_some hfound
  have heq : found = (place, node) :=
    List.inj_on_of_nodup_map hnodup (List.mem_of_find?_eq_some hfound) h hkey
  rw [node?, if_neg hplace, hfound, heq]
  rfl

theorem mem_of_node? {node : Node} (h : d.node? place = some node) (hplace : place ≠ []) :
    (place, node) ∈ d.nodes := by
  rw [node?, if_neg hplace, Option.map_eq_some_iff] at h
  obtain ⟨⟨other, found⟩, hfind, rfl⟩ := h
  have hother := List.find?_some hfind
  have hmem := List.mem_of_find?_eq_some hfind
  simp only [decide_eq_true_eq] at hother
  exact hother ▸ hmem

theorem mem_names {node : Node} (hfolder : d.nodeAt path = .ok .folder)
    (hplace : d.placeOf path = .ok folder) (h : d.node? (folder ++ [name]) = some node) :
    name ∈ d.names path := by
  have hmem := (mem_below_iff hfolder hplace).mpr ⟨mem_of_node? h (by simp), by simp⟩
  exact List.mem_filterMap.mpr ⟨_, hmem, rfl⟩

theorem exists_mem_of_mem_files {modified : Instant} (h : (name, modified) ∈ d.files path) :
    ∃ content, (destination d.current path ++ [name], .file content modified) ∈ d.nodes := by
  obtain ⟨⟨way, node⟩, hbelow, heq⟩ := List.mem_filterMap.mp h
  split at heq
  next content _ heq' =>
    cases heq'
    cases heq
    obtain ⟨folder, hfolder, hplace⟩ := exists_of_mem_below hbelow
    rw [← eq_of_placeOf hplace]
    exact ⟨content, ((mem_below_iff hfolder hplace).mp hbelow).1⟩
  next => cases heq

theorem exists_of_mem_files (hsound : d.Sound) {modified : Instant}
    (h : (name, modified) ∈ d.files path) :
    IsName name ∧ ∃ content,
      d.node? (destination d.current path ++ [name]) = some (.file content modified) := by
  obtain ⟨content, hmem⟩ := exists_mem_of_mem_files h
  exact ⟨hsound.names _ hmem name (by simp), content, node?_of_mem hsound.nodup hmem (by simp)⟩

theorem nodup_files (hsound : d.Sound) (path : Text) : ((d.files path).map (·.1)).Nodup := by
  have hnodes : d.nodes.Pairwise fun n m => n.1 ≠ m.1 := List.pairwise_map.mp hsound.nodup
  have hbelow : (d.below path).Pairwise fun n m => n.1 ≠ m.1 := by
    unfold below
    split
    next folder _ _ =>
      refine hnodes.filterMap _ fun n m hne a ha b hb heq => hne ?_
      obtain ⟨way, hway, rfl⟩ := Option.map_eq_some_iff.mp ha
      obtain ⟨way', hway', rfl⟩ := Option.map_eq_some_iff.mp hb
      rw [(wayFrom?_eq_some_iff.mp hway).1, (wayFrom?_eq_some_iff.mp hway').1]
      exact congrArg (folder ++ ·) heq
    next => exact .nil
  refine List.pairwise_map.mpr (hbelow.filterMap _ fun n m hne a ha b hb heq => hne ?_)
  split at ha <;> cases ha
  split at hb <;> cases hb
  exact congrArg (fun name => [name]) heq

theorem nodup_put (h : (d.nodes.map (·.1)).Nodup) (place : Place) (node : Node) :
    ((d.put place node).nodes.map (·.1)).Nodup := by
  rw [put, List.map_cons, List.nodup_cons]
  refine ⟨?_, h.sublist (List.filter_sublist.map _)⟩
  intro hmem
  obtain ⟨n, hn, heq⟩ := List.mem_map.mp hmem
  simpa [heq] using (List.mem_filter.mp hn).2

theorem nodup_erase (h : (d.nodes.map (·.1)).Nodup) (place : Place) :
    ((d.erase place).nodes.map (·.1)).Nodup := h.sublist (List.filter_sublist.map _)

end CodeGraft.Disk
