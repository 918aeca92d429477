import DistFs.Proofs.Path

namespace DistFs

namespace Path

variable {cs : List Char} {n : Name}

theorem segments_ne_nil (cs : List Char) : segments cs ≠ [] := by
  cases cs with
  | nil => simp [segments]
  | cons c cs =>
    rw [segments]
    split
    · simp
    · split <;> simp

theorem segments_of_no_slash (h : '/' ∉ cs) : segments cs = [cs] := by
  induction cs with
  | nil => rfl
  | cons c cs ih =>
    rw [List.mem_cons, not_or] at h
    rw [segments, if_neg (Ne.symm h.1), ih h.2]

theorem segments_append_slash (cs rest : List Char) :
    segments (cs ++ '/' :: rest) = segments cs ++ segments rest := by
  induction cs with
  | nil => simp [segments]
  | cons c cs ih =>
    rw [List.cons_append, segments, segments, ih]
    split
    · rfl
    · cases pieces : segments cs with
      | nil => exact absurd pieces (segments_ne_nil cs)
      | cons piece pieces => rfl

theorem segments_append (h : '/' ∉ cs) (rest : List Char) :
    segments (cs ++ '/' :: rest) = cs :: segments rest := by
  rw [segments_append_slash, segments_of_no_slash h, List.singleton_append]

theorem segments_names (n : Name) (names : List Name) :
    segments (n.text.toList ++ names.flatMap fun m => '/' :: m.text.toList) =
      (n :: names).map fun m => m.text.toList := by
  induction names generalizing n with
  | nil => simpa using segments_of_no_slash n.no_slash
  | cons m names ih =>
    rw [List.flatMap_cons, List.cons_append, segments_append n.no_slash, ih]
    rfl

theorem ofText_text (n : Name) : Name.ofText n.text = .ok n := by
  unfold Name.ofText
  rw [dif_neg n.not_empty, dif_neg n.no_slash, dif_neg n.no_colon]

theorem ofText_eq_ok {s : String} : Name.ofText s = .ok n ↔ n.text = s := by
  constructor
  · unfold Name.ofText
    intro read
    split at read
    · cases read
    · split at read
      · cases read
      · split at read
        · cases read
        · exact congrArg Name.text (Except.ok.inj read).symm
  · rintro rfl
    exact ofText_text n

theorem mapM_ofText (names : List Name) :
    (names.map fun n => n.text.toList).mapM (fun piece => Name.ofText (String.ofList piece)) =
      .ok names := by
  induction names with
  | nil => rfl
  | cons n names ih =>
    rw [List.map_cons, List.mapM_cons, ih, String.ofList_toList, ofText_text]
    rfl

theorem toList_text (n : Name) (names : List Name) :
    (text ⟨n :: names⟩).toList =
      '/' :: (n.text.toList ++ names.flatMap fun m => '/' :: m.text.toList) := by
  simp [text, String.toList_join, List.flatMap_map]

theorem parse_text (p : Path) : parse p.text = .ok p := by
  obtain ⟨names⟩ := p
  cases names with
  | nil => rfl
  | cons n names =>
    have full : ∀ piece ∈ (n :: names).map fun m => m.text.toList, decide (piece ≠ []) = true := by
      intro piece member
      obtain ⟨m, -, rfl⟩ := List.mem_map.mp member
      simpa using m.not_empty
    rw [parse, toList_text]
    simp only
    rw [segments_names, List.filter_eq_self.mpr full, mapM_ofText]
    rfl

end Path

end DistFs
