namespace DistFs

variable {κ α : Type} [DecidableEq κ]

theorem find?_filter_key (l : List (κ × α)) (keep : κ → Bool) (k : κ) :
    (l.filter fun entry => keep entry.1).find? (·.1 = k) =
      if keep k then l.find? (·.1 = k) else none := by
  induction l with
  | nil => simp
  | cons entry l ih =>
    by_cases here : entry.1 = k
    · subst here
      cases kept : keep entry.1 with
      | true => simp [kept]
      | false => simpa [kept] using ih
    · cases kept : keep entry.1 <;> simpa [kept, here] using ih

theorem find?_replace_key (l : List (κ × α)) (k : κ) (a : α) (k' : κ) :
    (l.map fun entry => if entry.1 = k then (k, a) else entry).find? (·.1 = k') =
      if k' = k then (l.find? (·.1 = k)).map fun _ => (k, a) else l.find? (·.1 = k') := by
  induction l with
  | nil => simp
  | cons entry l ih =>
    by_cases same : k' = k
    · subst same
      by_cases here : entry.1 = k'
      · simp [here]
      · simpa [here] using ih
    · by_cases here : entry.1 = k
      · simpa [here, same, Ne.symm same] using ih
      · by_cases there : entry.1 = k'
        · simp [there, same]
        · simpa [here, there, same] using ih

end DistFs
