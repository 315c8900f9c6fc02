import Mathlib.Data.List.Nodup
import Mathlib.Data.PNat.Basic

/-! A bounded set of bindings kept in order of use, the specification of a
least-recently-used replacement policy. -/
namespace InterviewQuestions.Library

/-- At most `cap` bindings of distinct keys, the least recently used one first. -/
structure RecencySet (K V : Type*) (cap : ℕ+) where
  entries : List (K × V)
  nodup : (entries.map Prod.fst).Nodup
  bounded : entries.length ≤ cap

namespace RecencySet

variable {K V : Type*} {cap : ℕ+}

@[ext] theorem ext {s t : RecencySet K V cap} (h : s.entries = t.entries) : s = t := by
  cases s
  cases t
  congr

def empty : RecencySet K V cap := ⟨[], List.nodup_nil, Nat.zero_le _⟩

variable [DecidableEq K]

/-- The value bound to a key. -/
def lookup (s : RecencySet K V cap) (k : K) : Option V :=
  (s.entries.find? fun e => e.1 = k).map Prod.snd

/-- The bindings of the other keys, in order. -/
def others (s : RecencySet K V cap) (k : K) : List (K × V) :=
  s.entries.filter fun e => e.1 ≠ k

theorem others_sublist (s : RecencySet K V cap) (k : K) : (s.others k).Sublist s.entries :=
  List.filter_sublist

private theorem nodup_append_fresh {l : List (K × V)} {s : RecencySet K V cap} {k : K} (v : V)
    (h : l.Sublist (s.others k)) : ((l ++ [(k, v)]).map Prod.fst).Nodup := by
  rw [List.map_append, List.nodup_append]
  refine ⟨s.nodup.sublist ((h.trans (s.others_sublist k)).map _), List.nodup_singleton _, ?_⟩
  intro a ha b hb
  obtain ⟨e, he, rfl⟩ := List.mem_map.mp ha
  have hne := (List.mem_filter.mp (h.subset he)).2
  simp only [List.map_cons, List.map_nil, List.mem_singleton] at hb
  subst hb
  exact of_decide_eq_true hne

/-- Bind a key as the most recently used one. A full set that does not hold the
key gives up its least recently used binding. -/
def insert (s : RecencySet K V cap) (k : K) (v : V) : RecencySet K V cap where
  entries := (if (s.others k).length = cap then (s.others k).tail else s.others k) ++ [(k, v)]
  nodup := by
    apply nodup_append_fresh v
    split
    · exact List.tail_sublist _
    · exact List.Sublist.refl _
  bounded := by
    have hlen := (s.others_sublist k).length_le.trans s.bounded
    have hcap := cap.pos
    split
    · simp only [List.length_append, List.length_tail, List.length_cons, List.length_nil]
      omega
    · simp only [List.length_append, List.length_cons, List.length_nil]
      omega

theorem lookup_eq_some {s : RecencySet K V cap} {k : K} {v : V} (h : (k, v) ∈ s.entries) :
    s.lookup k = some v := by
  have hunique : ∀ e ∈ s.entries, e.1 = k → e = (k, v) := fun e he hek =>
    List.inj_on_of_nodup_map s.nodup he h hek
  obtain ⟨e, he⟩ := Option.isSome_iff_exists.mp
    (List.find?_isSome (p := fun e => decide (e.1 = k)).mpr ⟨(k, v), h, by simp⟩)
  have hek := hunique e (List.mem_of_find?_eq_some he) (by simpa using List.find?_some he)
  rw [lookup, he, hek]
  rfl

theorem lookup_isSome {s : RecencySet K V cap} {k : K} :
    (s.lookup k).isSome ↔ k ∈ s.entries.map Prod.fst := by
  simp [lookup]

/-- Use a held key: bind it to the value as the most recently used one. A key
that is not held changes nothing. -/
def refresh (s : RecencySet K V cap) (k : K) (v : V) : RecencySet K V cap :=
  if h : k ∈ s.entries.map Prod.fst then
    { entries := s.others k ++ [(k, v)]
      nodup := nodup_append_fresh v (List.Sublist.refl _)
      bounded := by
        obtain ⟨e, he, hek⟩ := List.mem_map.mp h
        have hlt : (s.others k).length < s.entries.length := by
          apply List.length_filter_lt_length_iff_exists.mpr
          exact ⟨e, he, by simp [hek]⟩
        have := s.bounded
        simp only [List.length_append, List.length_cons, List.length_nil]
        omega }
  else s

theorem others_of_not_mem {s : RecencySet K V cap} {k : K} (h : k ∉ s.entries.map Prod.fst) :
    s.others k = s.entries := by
  apply List.filter_eq_self.mpr
  intro e he
  have hne : e.1 ≠ k := fun hek => h (List.mem_map.mpr ⟨e, he, hek⟩)
  simpa using hne

/-- Inserting a key that is not held appends it, after dropping the oldest binding of a full set. -/
theorem insert_fresh {s : RecencySet K V cap} {k : K} (h : k ∉ s.entries.map Prod.fst) (v : V) :
    (s.insert k v).entries =
      (if s.entries.length = cap then s.entries.tail else s.entries) ++ [(k, v)] := by
  simp only [insert, others_of_not_mem h]

theorem refresh_held {s : RecencySet K V cap} {k : K} (h : k ∈ s.entries.map Prod.fst) (v : V) :
    (s.refresh k v).entries = s.others k ++ [(k, v)] := by
  unfold refresh
  rw [dif_pos h]

theorem refresh_missing {s : RecencySet K V cap} {k : K} (h : k ∉ s.entries.map Prod.fst) (v : V) :
    s.refresh k v = s := by
  unfold refresh
  rw [dif_neg h]

end RecencySet

end InterviewQuestions.Library
