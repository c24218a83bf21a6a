import AllSat.Proofs.CountingOrder
import AllSat.Proofs.Interning
import AllSat.Proofs.ModelLists

namespace AllSat.NameTable

open Exchange (known_or_first_unknown)

variable {t : NameTable} {answer : List (Literal Nat)} {m : Model}

theorem model_eq_error_iff {cause : Error} :
    t.model answer = .error cause ↔
      ∃ before l after, answer = before ++ l :: after ∧ (∀ k ∈ before, t.Known k.atom) ∧
        ¬ t.Known l.atom ∧ cause = .unknownVariable l.atom := by
  constructor
  · intro h
    rcases known_or_first_unknown t answer with hknown | ⟨before, l, after, rfl, hbefore, hl⟩
    · cases (model_of_known hknown).symm.trans h
    · cases (model_of_not_known hbefore hl).symm.trans h
      exact ⟨before, l, after, rfl, hbefore, hl, rfl⟩
  · rintro ⟨before, l, after, rfl, hbefore, hl, rfl⟩
    exact model_of_not_known hbefore hl

theorem exists_model_eq_ok_iff :
    (∃ m, t.model answer = .ok m) ↔ ∀ l ∈ answer, t.Known l.atom := by
  constructor
  · rintro ⟨m, hm⟩
    rcases known_or_first_unknown t answer with hknown | ⟨before, l, after, rfl, hbefore, hl⟩
    · exact hknown
    · cases (model_of_not_known hbefore hl).symm.trans hm
  · exact fun hknown => ⟨_, model_of_known hknown⟩

theorem contains_reading_iff {name : String} (h : ∀ l ∈ answer, t.Known l.atom) :
    (t.reading answer).contains name = true ↔
      ∃ id, .pos id ∈ answer ∧ t.resolve id = .ok name := by
  rw [contains_reading h]
  constructor
  · rintro ⟨hname, hmem⟩
    exact ⟨_, hmem, resolve_number hname⟩
  · rintro ⟨id, hmem, hid⟩
    obtain ⟨hknown, rfl⟩ := resolve_eq_ok_iff.1 hid
    exact ⟨name_mem hknown, (number_name hknown).symm ▸ hmem⟩

theorem model_eq_ok_iff :
    t.model answer = .ok m ↔
      (∀ l ∈ answer, t.Known l.atom) ∧
        ∀ name, m.contains name = true ↔ ∃ id, .pos id ∈ answer ∧ t.resolve id = .ok name := by
  constructor
  · intro h
    have hknown := exists_model_eq_ok_iff.1 ⟨m, h⟩
    cases (model_of_known hknown).symm.trans h
    exact ⟨hknown, fun name => contains_reading_iff hknown⟩
  · rintro ⟨hknown, hm⟩
    rw [model_of_known hknown, Except.ok.injEq]
    exact Model.eq_of_contains_iff fun name =>
      (contains_reading_iff hknown).trans (hm name).symm

def Covers (t : NameTable) (answer : List (Literal Nat)) : Prop :=
  (answer.map Literal.atom).Perm (List.range' 1 t.size)

def signs (t : NameTable) (m : Model) : List (Literal Nat) :=
  (List.range' 1 t.size).map fun id => ⟨id, m.contains (t.name id)⟩

theorem mem_range'_iff {id : Nat} : id ∈ List.range' 1 t.size ↔ t.Known id := by
  rw [List.mem_range'_1, Known]
  omega

namespace Covers

theorem known_iff (h : t.Covers answer) {id : Nat} : t.Known id ↔ ∃ l ∈ answer, l.atom = id := by
  rw [← mem_range'_iff, ← h.mem_iff, List.mem_map]

theorem known (h : t.Covers answer) : ∀ l ∈ answer, t.Known l.atom :=
  fun l hl => h.known_iff.2 ⟨l, hl, rfl⟩

theorem nodup_atoms (h : t.Covers answer) : (answer.map Literal.atom).Nodup :=
  h.nodup_iff.2 List.nodup_range'

theorem perm_signs (h : t.Covers answer) : answer.Perm (t.signs (t.reading answer)) := by
  have hholds := holds_contains_reading h.known (negate_not_mem_of_nodup h.nodup_atoms)
  exact (List.Perm.of_eq (eq_map_of_holds hholds)).trans (h.map _)

end Covers

theorem covers_signs (t : NameTable) (m : Model) : t.Covers (t.signs m) := by
  rw [Covers, signs, List.map_map]
  exact (List.map_id _).symm ▸ List.Perm.refl _

theorem reading_within (h : ∀ l ∈ answer, t.Known l.atom) : (t.reading answer).Within t.names :=
  fun _ hname => ((contains_reading h).1 hname).1

theorem reading_signs (h : m.Within t.names) : t.reading (t.signs m) = m := by
  have hcovers := covers_signs t m
  apply Model.eq_of_contains_iff
  intro name
  rw [contains_reading_of_total hcovers.known (fun _ => hcovers.known_iff.1) (τ := m.contains)]
  · exact and_iff_right_of_imp (h name)
  · intro l hl
    obtain ⟨id, -, rfl⟩ := List.mem_map.1 hl
    rfl

theorem Covers.reading_eq_iff {a b : List (Literal Nat)} (ha : t.Covers a) (hb : t.Covers b) :
    t.reading a = t.reading b ↔ a.Perm b := by
  constructor
  · intro h
    exact ha.perm_signs.trans (h ▸ hb.perm_signs.symm)
  · intro h
    apply Model.eq_of_contains_iff
    intro name
    rw [contains_reading ha.known, contains_reading hb.known, h.mem_iff]

theorem Covers.perm_iff {a b : List (Literal Nat)} (ha : t.Covers a) (hb : t.Covers b) :
    a.Perm b ↔ ∀ l, l ∈ a ↔ l ∈ b :=
  List.perm_ext_iff_of_nodup (List.Nodup.of_map _ ha.nodup_atoms)
    (List.Nodup.of_map _ hb.nodup_atoms)

/-- An answer is refused for its first unknown id, whatever the sign there; any other is read as the
names of its positive literals. Answers with each id once are read as all sets of names, and only
those with the same signs as the same set. -/
theorem model_reads_signs (t : NameTable) :
    (∀ answer, (∃ cause, t.model answer = .error cause) ↔
      ∃ l ∈ answer, l.atom = 0 ∨ t.size < l.atom) ∧
    (∀ answer cause, t.model answer = .error cause ↔
      ∃ before l after, answer = before ++ l :: after ∧
        (∀ k ∈ before, ¬ (k.atom = 0 ∨ t.size < k.atom)) ∧ (l.atom = 0 ∨ t.size < l.atom) ∧
        cause = .unknownVariable l.atom) ∧
    (∀ answer m, t.model answer = .ok m ↔
      (¬ ∃ l ∈ answer, l.atom = 0 ∨ t.size < l.atom) ∧
        ∀ name, m.contains name = true ↔ ∃ id, .pos id ∈ answer ∧ t.resolve id = .ok name) ∧
    (∀ a, t.Covers a → ∃ m, m.Within t.names ∧ t.model a = .ok m) ∧
    (∀ m : Model, m.Within t.names → ∃ a, t.Covers a ∧ t.model a = .ok m) ∧
    ∀ a b, t.Covers a → t.Covers b →
      (t.model a = t.model b ↔ ∀ l, l ∈ a ↔ l ∈ b) ∧ (t.model a = t.model b ↔ a.Perm b) := by
  have hall : ∀ answer : List (Literal Nat),
      (¬ ∃ l ∈ answer, l.atom = 0 ∨ t.size < l.atom) ↔ ∀ l ∈ answer, t.Known l.atom := by
    intro answer
    simp only [← not_known_iff, not_exists, not_and, not_not]
  refine ⟨fun answer => ?_, fun answer cause => ?_, fun answer m => ?_, fun a ha => ?_,
    fun m hm => ?_, fun a b ha hb => ?_⟩
  · rw [← not_iff_not, hall, ← exists_model_eq_ok_iff]
    cases t.model answer <;> simp
  · simp only [← not_known_iff, not_not]
    exact model_eq_error_iff
  · rw [hall]
    exact model_eq_ok_iff
  · exact ⟨_, reading_within ha.known, model_of_known ha.known⟩
  · have hcovers := covers_signs t m
    exact ⟨_, hcovers, by rw [model_of_known hcovers.known, reading_signs hm]⟩
  · have hperm : t.model a = t.model b ↔ a.Perm b := by
      rw [model_of_known ha.known, model_of_known hb.known, Except.ok.injEq]
      exact ha.reading_eq_iff hb
    exact ⟨hperm.trans (ha.perm_iff hb), hperm⟩

end AllSat.NameTable
