import Mathlib.Data.List.Nodup
import Quadcode.Proofs.Eval.Storage

/-!
# Fresh frames

A fresh frame has the slots of every variable of its function, undefined where no argument came in.
-/

namespace Quadcode

open List Array

namespace Frame

variable {g : Graph} {args : List Value} {frame : Frame} {v : VarId}

/-- The frame before the arguments come in. -/
def blank (g : Graph) : Except Stop Frame := g.vars.mapM fun x => x.ty.storage .undef

variable {slots : Array Value} {x : Value}

theorem blank_getElem? (blanked : blank g = .ok frame) (here : frame[v]? = some slots) :
    ∃ x, g.vars[v]? = some x ∧ x.ty.storage .undef = .ok slots := by
  unfold blank at blanked
  rw [Array.mapM_eq_mapM_toList, map_eq_ok] at blanked
  obtain ⟨list, mapped, rfl⟩ := blanked
  have pointwise := List.forall₂_iff_get.1 (mapM_eq_ok.1 mapped)
  rw [List.getElem?_toArray, List.getElem?_eq_some_iff] at here
  obtain ⟨inside, rfl⟩ := here
  have bound : v < g.vars.toList.length := pointwise.1 ▸ inside
  have same := pointwise.2 v bound inside
  exact ⟨g.vars.toList[v], by simp, same⟩

theorem blank_of_declared (blanked : blank g = .ok frame) {x : Variable} (declared : g.vars[v]? = some x) :
    ∃ slots, frame[v]? = some slots ∧ x.ty.storage .undef = .ok slots := by
  cases here : frame[v]? with
  | some slots =>
    obtain ⟨y, declared', stored⟩ := blank_getElem? blanked here
    cases declared.symm.trans declared'
    exact ⟨slots, rfl, stored⟩
  | none =>
    unfold blank at blanked
    rw [mapM_eq_mapM_toList, map_eq_ok] at blanked
    obtain ⟨list, mapped, rfl⟩ := blanked
    have counted := (forall₂_iff_get.1 (mapM_eq_ok.1 mapped)).1
    have inside := (Array.getElem?_eq_some_iff.1 declared).1
    rw [Array.getElem?_eq_none_iff, List.size_toArray, ← counted, Array.length_toList] at here
    omega

theorem storage_eq {t : Ty} (stored : t.storage x = .ok slots) :
    ∃ n, t.slots? = some n ∧ slots = Array.replicate n x := by
  unfold Ty.storage at stored
  split at stored
  next n counted =>
    split at stored
    · cases stored
      exact ⟨n, counted, rfl⟩
    · cases stored
  · cases stored

variable (entered : enter g args = .ok frame)
include entered

/-- The arguments change only the parameters. -/
theorem enter_getElem? (outside : v ∉ g.params) : ∃ start, blank g = .ok start ∧ frame[v]? = start[v]? := by
  unfold enter at entered
  rw [bind_eq_ok] at entered
  obtain ⟨start, blanked, filled⟩ := entered
  refine ⟨start, blanked, ?_⟩
  refine foldlM_ok (fun _ (f : Frame) => f[v]? = start[v]?) rfl ?_ filled
  rintro done ⟨u, a⟩ rest f f' split before step
  have member : u ∈ g.params := of_mem_zip (show (u, a) ∈ g.params.zip args by simp [split]) |>.1
  have other : u ≠ v := fun same => outside (same ▸ member)
  simp only at step
  split at step
  · cases step
    rw [Array.getElem?_modify, if_neg other, before]
  · cases step

/-- A variable that is no parameter starts out undefined. -/
theorem enter_undef (outside : v ∉ g.params) (here : frame[v]? = some slots) {i : Nat} (slot : slots[i]? = some x) :
    x = .undef := by
  obtain ⟨start, blanked, same⟩ := enter_getElem? entered outside
  rw [same] at here
  obtain ⟨var, -, stored⟩ := blank_getElem? blanked here
  obtain ⟨n, -, rfl⟩ := storage_eq stored
  rw [Array.getElem?_replicate] at slot
  split at slot
  · exact (Option.some.inj slot).symm
  · cases slot

/-- A parameter that is named once starts out as its argument. -/
theorem enter_param (distinct : g.params.Nodup) (counted : g.params.length = args.length) {p : VarId} {a : Value}
    (given : (p, a) ∈ g.params.zip args) (here : frame[p]? = some slots) (slot : slots[0]? = some x) : x = a := by
  unfold enter at entered
  rw [bind_eq_ok] at entered
  obtain ⟨start, -, filled⟩ := entered
  have keys : ((g.params.zip args).map Prod.fst).Nodup := by
    rwa [map_fst_zip (Nat.le_of_eq counted)]
  refine foldlM_ok (fun done (f : Frame) => ∀ p a, (p, a) ∈ done → ∀ slots, f[p]? = some slots →
    ∀ x, slots[0]? = some x → x = a) nofun ?_ filled p a given slots here x slot
  rintro done ⟨u, b⟩ rest f f' split before step p a member slots here x slot
  simp only at step
  split at step
  · cases step
    rw [Array.getElem?_modify] at here
    by_cases same : u = p
    · subst same
      -- The parameter does not occur among those that were filled before.
      have last : (u, a) = (u, b) := by
        rcases mem_append.1 member with earlier | last
        · rw [split, List.map_append, List.nodup_append] at keys
          exact absurd rfl (keys.2.2 u (mem_map.2 ⟨_, earlier, rfl⟩) u (by simp))
        · exact mem_singleton.1 last
      cases last
      rw [if_pos rfl, Option.map_eq_some_iff] at here
      obtain ⟨old, -, rfl⟩ := here
      rw [getElem?_setIfInBounds, if_pos rfl] at slot
      split at slot
      · exact (Option.some.inj slot).symm
      · cases slot
    · have earlier : (p, a) ∈ done := by
        rcases mem_append.1 member with earlier | last
        · exact earlier
        · cases mem_singleton.1 last
          exact absurd rfl same
      rw [if_neg same] at here
      exact before p a earlier slots here x slot
  · cases step

end Frame

end Quadcode
