import Quadcode.Proofs.Graph.Normal
import Quadcode.StringPool

/-!
# Texts in the pool

A label leads back to its text as long as no two entries share it. The labels of a pool that texts
were added to are those it started with, followed by numbered ones. The numbers differ, so only a
numbered label and one that was there at the start can clash.
-/

namespace Quadcode.StringPool

open List Option

/-- The label of a new text that has `n` entries before it. -/
def numbered (n : Nat) : Label := "__str" ++ toString n

def labels (p : StringPool) : List Label := p.entries.map (·.1)

def internAll (p : StringPool) (texts : List String) : StringPool := texts.foldl (fun p s => (p.intern s).2) p

/-- The label that a text is given after others were entered. -/
def labelAfter (p : StringPool) (before : List String) (s : String) : Label := ((p.internAll before).intern s).1

/-- Entering texts one after the other loses none. -/
structure Lossless (p : StringPool) (texts : List String) : Prop where
  /-- A label leads back to its text, at once and after further texts. -/
  back : ∀ before s after, before ++ s :: after <+: texts →
    (p.internAll (before ++ s :: after)).get? (p.labelAfter before s) = some s
  apart : ∀ before s between t, before ++ s :: between ++ [t] <+: texts →
    (p.labelAfter before s = p.labelAfter (before ++ s :: between) t ↔ s = t)
  stays : ∀ before s, before ++ [s] <+: texts → (p.internAll before).entries <+: (p.internAll (before ++ [s])).entries

variable {p : StringPool} {texts before after : List String} {s : String} {l : Label}

@[simp]
theorem entries_ofList (entries : List (Label × String)) : (ofList entries).entries = entries := by
  suffices general : ∀ p : StringPool, (entries.foldl (fun p e => p.insert e.1 e.2) p).entries =
      p.entries ++ entries from general empty
  induction entries with
  | nil => simp
  | cons e rest ih =>
    intro p
    rw [foldl_cons, ih, insert, append_assoc]
    rfl

/-- The label of a text is that of its first entry. -/
theorem label?_eq (p : StringPool) (s : String) : p.label? s = (p.entries.find? (·.2 == s)).map (·.1) := p.index_eq s

/-- A text is there already, or it is entered under a number. -/
theorem intern_cases (p : StringPool) (s : String) : (∃ l, p.label? s = some l ∧ p.intern s = (l, p)) ∨
    (∀ e ∈ p.entries, e.2 ≠ s) ∧ p.intern s = (numbered p.size, p.insert (numbered p.size) s) := by
  unfold intern
  cases found : p.label? s with
  | some l => exact .inl ⟨l, rfl, rfl⟩
  | none => exact .inr ⟨by simpa [label?_eq] using found, rfl⟩

theorem mem_of_label? (found : p.label? s = some l) : (l, s) ∈ p.entries := by
  obtain ⟨e, first, rfl⟩ := map_eq_some_iff.1 (p.label?_eq s ▸ found)
  have same : e.2 = s := by simpa using find?_some first
  exact same ▸ mem_of_find?_eq_some first

section Growth

theorem internAll_append : p.internAll (before ++ after) = (p.internAll before).internAll after := foldl_append

theorem label?_intern (p : StringPool) (s : String) : (p.intern s).2.label? s = some (p.intern s).1 := by
  rcases intern_cases p s with ⟨l, found, same⟩ | ⟨new, same⟩
  · rw [same, found]
  · have absent : p.entries.find? (·.2 == s) = none := by simpa using new
    simp [same, label?_eq, insert, absent]

theorem prefix_intern (p : StringPool) (s : String) : p.entries <+: (p.intern s).2.entries := by
  rcases intern_cases p s with ⟨l, -, same⟩ | ⟨-, same⟩
  · rw [same]
  · exact same ▸ prefix_append ..

theorem prefix_internAll (p : StringPool) (texts : List String) : p.entries <+: (p.internAll texts).entries := by
  induction texts generalizing p with
  | nil => exact prefix_rfl
  | cons s rest ih => exact (prefix_intern p s).trans (ih _)

theorem label?_internAll (before : List String) (s : String) (after : List String) :
    (p.internAll (before ++ s :: after)).label? s = some (p.labelAfter before s) := by
  have entered := label?_intern (p.internAll before) s
  rw [label?_eq] at entered
  obtain ⟨e, found, same⟩ := map_eq_some_iff.1 entered
  have later := (prefix_internAll _ after).find?_eq_some found
  rw [internAll_append, label?_eq]
  exact map_eq_some_iff.2 ⟨e, later, same⟩

theorem labels_internAll (p : StringPool) (texts : List String) :
    ∃ n, (p.internAll texts).labels = p.labels ++ (List.range' p.size n).map numbered := by
  induction texts generalizing p with
  | nil => exact ⟨0, (append_nil _).symm⟩
  | cons s rest ih =>
    obtain ⟨n, rest⟩ := ih (p.intern s).2
    rcases intern_cases p s with ⟨l, -, same⟩ | ⟨-, same⟩
    · refine ⟨n, rest.trans ?_⟩
      rw [same]
    · refine ⟨n + 1, rest.trans ?_⟩
      simp [same, labels, insert, size, range'_succ]

end Growth

theorem nodup_internAll (distinct : p.labels.Nodup) : (p.internAll texts).labels.Nodup ↔
    ∀ n, p.size ≤ n → n < (p.internAll texts).size → numbered n ∉ p.labels := by
  obtain ⟨k, split⟩ := labels_internAll p texts
  have length : (p.internAll texts).size = p.size + k := by simpa [labels, size] using congrArg List.length split
  have apart : ((List.range' p.size k).map numbered).Nodup := (List.nodup_range' 1).map fun _ _ => drawn_inj
  rw [split, List.nodup_append', length]
  simp only [distinct, apart, true_and, List.disjoint_right, List.mem_map, List.mem_range'_1]
  constructor
  · exact fun clear n low high => clear ⟨n, ⟨low, high⟩, rfl⟩
  · rintro clear _ ⟨n, ⟨low, high⟩, rfl⟩
    exact clear n low high

/-- Where no label is used twice, a label leads to the text entered under it. -/
theorem get?_of_mem (distinct : p.labels.Nodup) (entered : (l, s) ∈ p.entries) : p.get? l = some s := by
  have some_entry : (p.entries.find? (·.1 == l)).isSome := find?_isSome.2 ⟨_, entered, beq_self_eq_true l⟩
  obtain ⟨e, first⟩ := isSome_iff_exists.1 some_entry
  have same : e.1 = l := by simpa using find?_some first
  have only := inj_on_of_nodup_map distinct (mem_of_find?_eq_some first) entered same
  exact map_eq_some_iff.2 ⟨e, first, congrArg Prod.snd only⟩

theorem lossless_of_nodup (distinct : (p.internAll texts).labels.Nodup) : Lossless p texts := by
  have part {before : List String} (early : before <+: texts) : (p.internAll before).labels.Nodup := by
    obtain ⟨after, rfl⟩ := early
    rw [internAll_append] at distinct
    exact distinct.sublist ((prefix_internAll _ after).map _).sublist
  have entered (before s after) : (p.labelAfter before s, s) ∈ (p.internAll (before ++ s :: after)).entries :=
    mem_of_label? (label?_internAll before s after)
  refine ⟨fun before s after early => get?_of_mem (part early) (entered before s after), ?_, ?_⟩
  · intro before s between t early
    constructor
    · intro same
      have first := entered before s (between ++ [t])
      have second := entered (before ++ s :: between) t []
      simp only [append_assoc, cons_append] at first second early
      exact congrArg Prod.snd (inj_on_of_nodup_map (part early) first second same)
    · rintro rfl
      have first := label?_internAll (p := p) before s (between ++ [s])
      have second := label?_internAll (p := p) (before ++ s :: between) s []
      simp only [append_assoc, cons_append] at first second
      exact Option.some.inj (first.symm.trans second)
  · intro before s _
    rw [internAll_append]
    exact prefix_intern _ s

theorem nodup_of_lossless (distinct : p.labels.Nodup) (lossless : Lossless p texts) :
    (p.internAll texts).labels.Nodup := by
  suffices part : ∀ before, before <+: texts → (p.internAll before).labels.Nodup from part texts prefix_rfl
  intro before early
  induction before using List.reverseRecOn with
  | nil => exact distinct
  | append_singleton before s ih =>
    have sound := ih ((prefix_append before [s]).trans early)
    have back := lossless.back before s [] early
    rw [internAll_append] at back ⊢
    change ((p.internAll before).intern s).2.get? ((p.internAll before).intern s).1 = some s at back
    change ((p.internAll before).intern s).2.labels.Nodup
    generalize p.internAll before = q at sound back ⊢
    rcases intern_cases q s with ⟨l, -, same⟩ | ⟨new, same⟩
    · rwa [same]
    · rw [same] at back ⊢
      -- An older entry under the number would be found in place of the new one.
      have unused : numbered q.size ∉ q.labels := by
        intro used
        obtain ⟨⟨l, t⟩, member, rfl : l = numbered q.size⟩ := mem_map.1 used
        obtain ⟨e, found, text⟩ := map_eq_some_iff.1 (get?_of_mem sound member)
        have later : (q.insert (numbered q.size) s).get? (numbered q.size) = some t :=
          map_eq_some_iff.2 ⟨e, (prefix_append ..).find?_eq_some found, text⟩
        exact new _ member (Option.some.inj (later.symm.trans back))
      rw [labels, insert, map_append]
      exact nodup_append'.2 ⟨sound, nodup_singleton _, disjoint_singleton.2 unused⟩

/-- Entering texts into a pool whose labels differ loses none exactly if no label that was there
already is numbered like one of the new entries. -/
theorem interning_lossless_iff {entries : List (Label × String)} (distinct : (entries.map (·.1)).Nodup)
    (texts : List String) :
    Lossless (ofList entries) texts ↔ ∀ n, entries.length ≤ n → n < ((ofList entries).internAll texts).size →
      "__str" ++ toString n ∉ entries.map (·.1) := by
  have start : (ofList entries).labels.Nodup := by rwa [labels, entries_ofList]
  have shut := @nodup_internAll _ texts start
  rw [labels.eq_def (ofList entries), size.eq_def (ofList entries), entries_ofList] at shut
  exact ⟨fun lossless => shut.1 (nodup_of_lossless start lossless), fun clear => lossless_of_nodup (shut.2 clear)⟩

/-- Numbered labels may be there at the start, and a text may be there twice. -/
theorem greetings_lossless :
    Lossless (ofList [("__str1", "hi"), ("__str0", "!"), ("again", "hi")]) ["bye", "hi", "?", "bye", "!"] :=
  (interning_lossless_iff (by decide) _).2 (by
    have size : ((ofList [("__str1", "hi"), ("__str0", "!"), ("again", "hi")]).internAll
      ["bye", "hi", "?", "bye", "!"]).size = 5 := by decide +kernel
    rw [size]
    decide +kernel)

/-- The second text gets the label of the first. -/
theorem numbered_label_clashes : ([("__str1", "a")].map (·.1)).Nodup ∧ ¬Lossless (ofList [("__str1", "a")]) ["b"] := by
  refine ⟨by decide, fun lossless => ?_⟩
  exact absurd (lossless.back [] "b" [] prefix_rfl) (by decide +kernel)

end Quadcode.StringPool
