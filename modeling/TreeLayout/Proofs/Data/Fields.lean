import TreeLayout.Config.Load

/-!
# Fields of mappings

What the operations on mappings do to the field of a name: changing one (`lookup_upsert`), keeping
the last of each name (`namesDistinct_lastFieldsEntries`), reading known fields as a record
(`lookup_of_record?`), reading one field for each member of a type (`fieldOr_of_decodeTable?`), and
laying one mapping over another (`lookup_overlayFields`). Proofs about documents use these lemmas
and do not look into the lists of fields.
-/

namespace TreeLayout

section Lookup

variable {α : Type}

/-- A field in front is found under its name, and the others under theirs. -/
theorem lookup_cons_ite (n name : String) (a : α) (rest : List (String × α)) :
    ((name, a) :: rest).lookup n = if n = name then some a else rest.lookup n := by
  by_cases h : n = name
  · rw [if_pos h, h, List.lookup_cons_self]
  · rw [if_neg h, List.lookup_cons, beq_false_of_ne h]

/-- A field that is put in is found with the new value, and the others as before. -/
theorem lookup_upsert (name : String) (change : Option α → α) (fields : List (String × α))
    (n : String) : (upsert name change fields).lookup n =
      if n = name then some (change (fields.lookup name)) else fields.lookup n := by
  induction fields with
  | nil => rw [upsert, lookup_cons_ite, List.lookup_nil, List.lookup_nil]
  | cons field fields ih =>
    obtain ⟨first, a⟩ := field
    rw [upsert]
    by_cases hfirst : first = name
    · subst hfirst
      rw [if_pos (beq_self_eq_true first), lookup_cons_ite, lookup_cons_ite, lookup_cons_ite,
        if_pos rfl]
      split <;> rfl
    · rw [if_neg (by simpa using hfirst), lookup_cons_ite, ih, lookup_cons_ite, lookup_cons_ite,
        if_neg (Ne.symm hfirst)]
      split
      · rename_i hn
        rw [if_neg (hn ▸ hfirst)]
      · rfl

/-- A look-up does not see fields of other names. -/
theorem lookup_filter {keeps : String → Bool} {n : String} (h : keeps n = true)
    (fields : List (String × α)) :
    (fields.filter fun field => keeps field.1).lookup n = fields.lookup n := by
  induction fields with
  | nil => rfl
  | cons field fields ih =>
    obtain ⟨name, a⟩ := field
    rw [lookup_cons_ite, List.filter_cons]
    by_cases hname : keeps name = true
    · rw [if_pos hname, lookup_cons_ite, ih]
    · rw [if_neg hname, ih, if_neg ?_]
      rintro rfl
      exact hname h

end Lookup

/-! ## Distinct names -/

namespace Value

variable {fields : List (String × Value)}

/-- A name in front of distinct names is none of them. -/
theorem namesDistinct_cons {name : String} {v : Value}
    (h : namesDistinct ((name, v) :: fields) = true) :
    fields.lookup name = none ∧ namesDistinct fields = true := by
  rw [namesDistinct, Bool.and_eq_true, Bool.not_eq_true', List.any_eq_false] at h
  refine ⟨List.lookup_eq_none_iff.2 fun field hfield => ?_, h.2⟩
  have hne := h.1 field hfield
  simp only [beq_iff_eq, bne_iff_ne, ne_eq] at hne ⊢
  exact fun heq => hne heq.symm

/-- Of fields with one name the last one is kept, so the names are the same. -/
theorem any_lastFieldsEntries (name : String) (fields : List (String × Value)) :
    (lastFieldsEntries fields).any (·.1 == name) = fields.any (·.1 == name) := by
  induction fields with
  | nil => rfl
  | cons field fields ih =>
    obtain ⟨first, v⟩ := field
    rw [lastFieldsEntries]
    split
    · rename_i hlater
      rw [ih, List.any_cons]
      by_cases hfirst : first = name
      · rw [← hfirst, hlater, Bool.or_true]
      · rw [beq_false_of_ne hfirst, Bool.false_or]
    · rw [List.any_cons, List.any_cons, ih]

/-- The last fields of each name have distinct names. -/
theorem namesDistinct_lastFieldsEntries (fields : List (String × Value)) :
    namesDistinct (lastFieldsEntries fields) = true := by
  induction fields with
  | nil => rfl
  | cons field fields ih =>
    obtain ⟨first, v⟩ := field
    rw [lastFieldsEntries]
    split
    · exact ih
    · rename_i hlater
      rw [namesDistinct, any_lastFieldsEntries, ih, Bool.eq_false_iff.2 hlater]
      rfl

/-- A field among the last ones has its own last fields. -/
theorem eq_lastFields_of_lookup {name : String} {v : Value}
    (h : (lastFieldsEntries fields).lookup name = some v) : ∃ w : Value, v = w.lastFields := by
  induction fields with
  | nil => cases h
  | cons field fields ih =>
    obtain ⟨first, w⟩ := field
    rw [lastFieldsEntries] at h
    split at h
    · exact ih h
    · rw [lookup_cons_ite] at h
      split at h
      · cases h
        exact ⟨w, rfl⟩
      · exact ih h

/-- The parts of a value that keeps the last fields keep theirs. -/
theorem eq_lastFields_of_field? {v part : Value} {name : String}
    (h : v.lastFields.field? name = some part) : ∃ w : Value, part = w.lastFields := by
  cases v with
  | map fields => exact eq_lastFields_of_lookup h
  | _ => cases h

end Value

/-! ## Records -/

/-- A known field of a record is the field of its name in the mapping. -/
theorem lookup_of_record? {d : Dialect} {names : List String} {all fields : List (String × Value)}
    {name : String} (h : (Value.map all).record? d names = some fields) (hname : name ∈ names) :
    fields.lookup name = all.lookup name := by
  have hrecord : (Value.map all).record? d names =
      if Value.namesDistinct (all.filter fun field => names.contains field.1) then
        some (all.filter fun field => names.contains field.1)
      else none := by
    cases d <;> rfl
  rw [hrecord] at h
  split at h
  · cases h
    exact lookup_filter (List.contains_iff_mem.2 hname) all
  · cases h

/-- Reading a known field of a record reads the field of the mapping. -/
theorem fieldOr_of_record? {α : Type} {d : Dialect} {names : List String}
    {all fields : List (String × Value)} {name : String}
    (h : (Value.map all).record? d names = some fields) (hname : name ∈ names) (default : α)
    (decode? : Value → Option α) :
    fieldOr fields name default decode? = fieldOr all name default decode? := by
  rw [fieldOr, fieldOr, lookup_of_record? h hname]

section Table

variable {κ α : Type} [DecidableEq κ] {name : κ → String} {default : κ → α}
  {decode? : Value → Option α} {fields : List (String × Value)}

/-- Reading one field for each member of a list gives every member its own. -/
theorem fieldOr_of_mapM {all : List κ} {entries : List (κ × α)}
    (h : (all.mapM fun k =>
      (fieldOr fields (name k) (default k) decode?).map fun a => (k, a)) = some entries)
    {k : κ} (hk : k ∈ all) :
    fieldOr fields (name k) (default k) decode? = some ((entries.lookup k).getD (default k)) := by
  induction all generalizing entries with
  | nil => cases hk
  | cons first all ih =>
    rw [List.mapM_cons] at h
    obtain ⟨entry, hfirst, h⟩ := Option.bind_eq_some_iff.1 h
    obtain ⟨rest, hrest, h⟩ := Option.bind_eq_some_iff.1 h
    cases h
    obtain ⟨a, ha, rfl⟩ := Option.map_eq_some_iff.1 hfirst
    by_cases hfirst : k = first
    · subst hfirst
      rw [List.lookup_cons_self, ha]
      rfl
    · rw [List.lookup_cons, beq_false_of_ne hfirst]
      exact ih hrest ((List.mem_cons.1 hk).resolve_left hfirst)

/-- A table has the field of each name, and its default where there is none. -/
theorem fieldOr_of_decodeTable? {d : Dialect} {all : List κ} {t : κ → α}
    (h : decodeTable? d all name default decode? (.map fields) = some t) {k : κ} (hk : k ∈ all) :
    fieldOr fields (name k) (default k) decode? = some (t k) := by
  obtain ⟨known, hknown, h⟩ := Option.bind_eq_some_iff.1 h
  obtain ⟨entries, hentries, h⟩ := Option.bind_eq_some_iff.1 h
  cases h
  rw [← fieldOr_of_mapM hentries hk, fieldOr_of_record? hknown (List.mem_map_of_mem hk)]

end Table

/-! ## Mappings over mappings -/

namespace Value

/-- What does not lie over a mapping is not changed by it. -/
theorem overlay_of_not_map {base : Value} (h : ∀ fields, base ≠ .map fields) (v : Value) :
    base.overlay v = v := by
  cases v with
  | map fields =>
    cases base with
    | map old => exact absurd rfl (h old)
    | _ => rfl
  | _ => rfl

/-- A field of a mapping over another one lies over the field of its name, and a field that only one
of them has stays as it is. -/
theorem lookup_overlayFields {fields : List (String × Value)} (h : namesDistinct fields = true)
    (base : List (String × Value)) (n : String) :
    (overlayFields base fields).lookup n =
      match fields.lookup n with
      | some v => some ((base.lookup n).elim v (·.overlay v))
      | none => base.lookup n := by
  induction fields generalizing base with
  | nil => rfl
  | cons field fields ih =>
    obtain ⟨name, v⟩ := field
    obtain ⟨hfirst, hrest⟩ := namesDistinct_cons h
    rw [overlayFields, ih hrest, lookup_upsert, lookup_cons_ite]
    by_cases hn : n = name
    · subst hn
      rw [if_pos rfl, if_pos rfl, hfirst]
      cases base.lookup n <;> rfl
    · rw [if_neg hn, if_neg hn]

end Value

end TreeLayout
