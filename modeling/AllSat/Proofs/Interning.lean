import AllSat.Proofs.Checked
import AllSat.Proofs.FirstOccurrences
import AllSat.Proofs.Naming

namespace AllSat

namespace NameTable

variable {t u : NameTable}

theorem id?_of_mem {name : String} (h : name ∈ t.names) : t.id? name = some (t.number name) := by
  simp [id?, h]

theorem id?_eq_none_iff {name : String} : t.id? name = none ↔ name ∉ t.names := by
  simp [id?]

theorem resolve_eq_ok_iff {id : Nat} {name : String} :
    t.resolve id = .ok name ↔ t.Known id ∧ t.name id = name := by
  by_cases h : t.Known id
  · simp [resolve_of_known h, h]
  · simp [resolve_of_not_known h, h]

theorem not_known_iff {id : Nat} : ¬ t.Known id ↔ id = 0 ∨ t.size < id := by
  simp only [Known]
  omega

theorem resolve_eq_error_iff {id : Nat} {cause : Error} :
    t.resolve id = .error cause ↔ ¬ t.Known id ∧ cause = .unknownVariable id := by
  by_cases h : t.Known id
  · simp [resolve_of_known h, h]
  · simp [resolve_of_not_known h, h, eq_comm]

theorem id?_eq_some_iff {name : String} {id : Nat} :
    t.id? name = some id ↔ t.resolve id = .ok name := by
  rw [resolve_eq_ok_iff]
  constructor
  · intro h
    by_cases hname : name ∈ t.names
    · rw [id?_of_mem hname] at h
      cases h
      exact ⟨known_number hname, name_number hname⟩
    · rw [id?_eq_none_iff.2 hname] at h
      cases h
  · rintro ⟨hid, rfl⟩
    rw [id?_of_mem (name_mem hid), number_name hid]

theorem number_mono (h : t.names <+: u.names) {name : String} (hname : name ∈ t.names) :
    u.number name = t.number name := by
  obtain ⟨more, hmore⟩ := h
  rw [number, ← hmore, List.idxOf_append_of_mem hname, number]

theorem id?_mono (h : t.names <+: u.names) {name : String} {id : Nat}
    (hid : t.id? name = some id) : u.id? name = some id :=
  id?_eq_some_iff.2 <| resolve_of_prefix h <| id?_eq_some_iff.1 hid

theorem resolveLiteral_mono (h : t.names <+: u.names) {l : Literal Nat} {m : Literal String}
    (hl : t.resolveLiteral l = .ok m) : u.resolveLiteral l = .ok m := by
  obtain ⟨name, hname, rfl⟩ := exists_of_map_eq_ok hl
  rw [resolveLiteral, resolve_of_prefix h hname, Except.map]

theorem model_mono (h : t.names <+: u.names) {answer : List (Literal Nat)} {m : Model}
    (hm : t.model answer = .ok m) : u.model answer = .ok m := by
  obtain ⟨ls, hls, rfl⟩ := exists_of_map_eq_ok hm
  have hresolved : answer.mapM u.resolveLiteral = .ok ls :=
    mapM_eq_ok_iff.2 ((mapM_eq_ok_iff.1 hls).imp fun _ _ => resolveLiteral_mono h)
  rw [model, hresolved, Except.map]

theorem names_insertAll_empty (names : List String) :
    (empty.insertAll names).names = names.eraseDups := by
  rw [names_insertAll]
  rfl

theorem id?_insertAll_empty {before later : List String} {name : String} (h : name ∉ before) :
    (empty.insertAll (before ++ name :: later)).id? name = some (before.toFinset.card + 1) := by
  have hmem : name ∈ (empty.insertAll (before ++ name :: later)).names :=
    mem_names_insertAll.2 (.inr (by simp))
  rw [id?_of_mem hmem, number, names_insertAll_empty, idxOf_eraseDups h]

theorem id?_insertAll_number {names : List String}
    (h : (t.insertAll names).names <+: u.names) :
    List.Forall₂ (fun name id => u.id? name = some id) names
      (names.map (t.insertAll names).number) := by
  rw [List.forall₂_map_right_iff, List.forall₂_same]
  exact fun name hname => id?_mono h (id?_of_mem (mem_names_insertAll.2 (.inr hname)))

theorem number_insert_of_not_mem {name : String} (h : name ∉ t.names) :
    (t.insert name).number name = t.size + 1 := by
  rw [number, names_insert_of_not_mem h, List.idxOf_append_of_notMem h, List.idxOf_cons_self]
  rfl

theorem id?_insert_of_not_mem {name : String} (h : name ∉ t.names) (other : String) :
    (t.insert name).id? other = if other = name then some (t.size + 1) else t.id? other := by
  by_cases hother : other = name
  · subst hother
    rw [if_pos rfl, id?_of_mem (mem_names_insert.2 (.inr rfl)), number_insert_of_not_mem h]
  · rw [if_neg hother]
    by_cases hmem : other ∈ t.names
    · rw [id?_of_mem hmem]
      exact id?_mono (prefix_insert t name) (id?_of_mem hmem)
    · rw [id?_eq_none_iff.2 hmem, id?_eq_none_iff, mem_names_insert]
      exact not_or.2 ⟨hmem, hother⟩

end NameTable

end AllSat
