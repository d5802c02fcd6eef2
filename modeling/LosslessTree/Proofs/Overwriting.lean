/-!
# Overwriting

What can be written again and again, place by place, keeps no history: a write changes one place and
hides what was written there before. So a run of writes can be told by its last write to each place.

## Main definitions

* `lastWith`: the last of some items that has a key.

## Main results

* `read_foldl_write`: after a run of writes, each place holds what was written to it last.
-/

namespace LosslessTree

universe u v w x

variable {α : Type u} {κ : Type v} [DecidableEq κ]

/-- The last of some items that has the key `k`. -/
def lastWith (key : α → κ) (k : κ) (items : List α) : Option α :=
  items.reverse.find? fun item => key item = k

theorem lastWith_cons (key : α → κ) (k : κ) (item : α) (rest : List α) :
    lastWith key k (item :: rest) =
      (lastWith key k rest).or (if key item = k then some item else none) := by
  rw [lastWith, List.reverse_cons, List.find?_append]
  by_cases hkey : key item = k <;> simp [lastWith, hkey]

theorem exists_lastWith_of_mem (key : α → κ) {item : α} {items : List α} (h : item ∈ items) :
    ∃ last, lastWith key (key item) items = some last := by
  refine Option.isSome_iff_exists.1 (List.find?_isSome.2 ⟨item, List.mem_reverse.2 h, ?_⟩)
  exact decide_eq_true rfl

/-- **The last write wins.** Suppose that a write changes what is read at the place of its key, and
nothing else, and that it hides an earlier write to that place. Then a run of writes leaves at each
place what its last write there leaves. -/
theorem read_foldl_write {σ : Type w} {β : Type x} (read : κ → σ → β) (write : σ → α → σ)
    (key : α → κ) (update : α → β → β)
    (hstep : ∀ state item k,
      read k (write state item) = if key item = k then update item (read k state) else read k state)
    (hhides : ∀ item later b, update later (update item b) = update later b)
    (items : List α) (state : σ) (k : κ) :
    read k (items.foldl write state) =
      (lastWith key k items).elim (read k state) fun last => update last (read k state) := by
  induction items generalizing state with
  | nil => rfl
  | cons item rest ih =>
    rw [List.foldl_cons, ih, hstep, lastWith_cons]
    by_cases hkey : key item = k
    · cases lastWith key k rest with
      | none => simp [hkey]
      | some later => simp [hkey, hhides]
    · simp [hkey]

end LosslessTree
