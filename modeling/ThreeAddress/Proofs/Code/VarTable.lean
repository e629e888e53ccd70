import ThreeAddress.Code.VarTable
/-!
# Slots of a variable table

A table only grows at its end, so a name keeps the variable it was given whatever comes later (`lookup?_of_isPrefix`).
In a table that was built by interning, names are distinct and every slot is the position of its entry (`Valid`). Names
that are interned one after another stand in the order of their first occurrences (`names_internAll`).
-/
namespace ThreeAddress.Code.VarTable

/-! ## Entries -/

theorem isPrefix_intern (t : VarTable) (name : String) : t.toList <+: (t.intern name).2.toList := by
  rw [toList_intern]
  exact List.prefix_append _ _

theorem names_intern (t : VarTable) (name : String) :
    (t.intern name).2.names = if name ∈ t.names then t.names else t.names ++ [name] := by
  rw [names, toList_intern]
  split
  · rw [List.append_nil, names]
  · rw [List.map_append, names]
    rfl

theorem name_intern (t : VarTable) (name : String) : (t.intern name).1.name = name := by
  unfold intern
  cases h : t.lookup? name with
  | none => rfl
  | some v => exact (mem_of_lookup? h).2

theorem lookup?_intern (t : VarTable) (name : String) : (t.intern name).2.lookup? name = some (t.intern name).1 := by
  unfold intern
  cases h : t.lookup? name with
  | some v => exact h
  | none =>
    have hnone : t.toList.find? (·.name = name) = none := h
    simp [lookup?, List.find?_append, hnone]

theorem mem_toList_intern (t : VarTable) (name : String) : (t.intern name).1 ∈ (t.intern name).2.toList :=
  (mem_of_lookup? (t.lookup?_intern name)).1

/-- Names that come later do not change a variable. -/
theorem lookup?_of_isPrefix {t u : VarTable} (h : t.toList <+: u.toList) {name : String} {v : Variable}
    (hv : t.lookup? name = some v) : u.lookup? name = some v := by
  obtain ⟨rest, hrest⟩ := h
  have hfind : t.toList.find? (·.name = name) = some v := hv
  rw [lookup?, ← hrest, List.find?_append, hfind, Option.some_or]

/-! ## Slots and positions -/

/-- Names are distinct, and the slot stored for an entry is its position. -/
structure Valid (t : VarTable) : Prop where
  nodup : t.names.Nodup
  slots : t.toList.map (·.slot) = List.range t.toList.length

theorem valid_empty : Valid {} := ⟨List.nodup_nil, rfl⟩

theorem Valid.intern {t : VarTable} (h : t.Valid) (name : String) : (t.intern name).2.Valid where
  nodup := by
    rw [names_intern]
    split
    · exact h.nodup
    next hn =>
      refine List.nodup_append.2 ⟨h.nodup, by simp, ?_⟩
      intro a ha b hb
      rw [List.mem_singleton.1 hb]
      rintro rfl
      exact hn ha
  slots := by
    rw [toList_intern]
    split
    · rw [List.append_nil]
      exact h.slots
    · rw [List.map_append, h.slots, List.length_append]
      exact List.range_succ.symm

theorem Valid.slot_getElem {t : VarTable} (h : t.Valid) {k : Nat} (hk : k < t.toList.length) :
    t.toList[k].slot = k := by
  have hslots := congrArg (fun slots : List Nat => slots[k]?) h.slots
  simpa [hk] using hslots

theorem Valid.getElem?_slot {t : VarTable} (h : t.Valid) {v : Variable} (hv : v ∈ t.toList) :
    t.toList[v.slot]? = some v := by
  obtain ⟨k, hk, rfl⟩ := List.mem_iff_getElem.1 hv
  rw [h.slot_getElem hk, List.getElem?_eq_getElem hk]

theorem Valid.getElem?_names {t : VarTable} (h : t.Valid) {v : Variable} (hv : v ∈ t.toList) :
    t.names[v.slot]? = some v.name := by
  rw [names, List.getElem?_map, h.getElem?_slot hv, Option.map_some]

theorem Valid.slot_eq_iff {t : VarTable} (h : t.Valid) {v w : Variable} (hv : v ∈ t.toList) (hw : w ∈ t.toList) :
    v.slot = w.slot ↔ v.name = w.name := by
  have hv' := h.getElem?_names hv
  have hw' := h.getElem?_names hw
  constructor
  · intro hs
    rw [hs, hw'] at hv'
    exact (Option.some.inj hv').symm
  · intro hn
    rw [← hn, ← hv'] at hw'
    exact (List.getElem?_inj (List.getElem?_eq_some_iff.1 hv').1 h.nodup).1 hw'.symm

/-- Looking a name up finds the entry that has it. -/
theorem Valid.lookup?_eq_some_iff {t : VarTable} (h : t.Valid) {name : String} {v : Variable} :
    t.lookup? name = some v ↔ v ∈ t.toList ∧ v.name = name := by
  constructor
  · exact mem_of_lookup?
  · rintro ⟨hv, rfl⟩
    cases hw : t.lookup? v.name with
    | none => exact absurd (List.mem_map_of_mem hv) (lookup?_eq_none_iff.1 hw)
    | some w =>
      obtain ⟨hmem, hname⟩ := mem_of_lookup? hw
      have hslot := (h.slot_eq_iff hmem hv).2 hname
      rw [← h.getElem?_slot hmem, ← h.getElem?_slot hv, hslot]

theorem Valid.slot_eq_idxOf {t : VarTable} (h : t.Valid) {v : Variable} (hv : v ∈ t.toList) :
    v.slot = t.names.idxOf v.name := by
  obtain ⟨hlt, hname⟩ := List.getElem?_eq_some_iff.1 (h.getElem?_names hv)
  rw [← hname, h.nodup.idxOf_getElem]

/-- The entries are the names with their positions. -/
theorem Valid.toList_eq {t : VarTable} (h : t.Valid) :
    t.toList = t.names.zipIdx.map fun (name, slot) => ⟨name, slot⟩ := by
  apply List.ext_getElem
  · simp [names]
  · intro k hk _
    simp only [names, List.getElem_map, List.getElem_zipIdx, Nat.zero_add]
    exact congrArg (Variable.mk t.toList[k].name) (h.slot_getElem hk)

/-! ## Many names -/

def internAll (t : VarTable) (names : List String) : VarTable := names.foldl (fun t name => (t.intern name).2) t

theorem internAll_append (t : VarTable) (names more : List String) :
    t.internAll (names ++ more) = (t.internAll names).internAll more :=
  List.foldl_append

theorem Valid.internAll {t : VarTable} (h : t.Valid) (names : List String) : (t.internAll names).Valid := by
  induction names generalizing t with
  | nil => exact h
  | cons name names ih => exact ih (h.intern name)

theorem isPrefix_internAll (t : VarTable) (names : List String) : t.toList <+: (t.internAll names).toList := by
  induction names generalizing t with
  | nil => exact List.prefix_rfl
  | cons name names ih => exact (t.isPrefix_intern name).trans (ih (t.intern name).2)

theorem eraseDups_concat (names : List String) (name : String) :
    (names ++ [name]).eraseDups = if name ∈ names then names.eraseDups else names.eraseDups ++ [name] := by
  rw [List.eraseDups_append]
  split
  · rename_i h
    simp [List.removeAll, h]
  · rename_i h
    simp [List.removeAll, h, List.eraseDups_cons]

/-- `names` are those that were interned up to `t`, with their repetitions. -/
theorem names_internAll {t : VarTable} (names more : List String) (h : t.names = names.eraseDups) :
    (t.internAll more).names = (names ++ more).eraseDups := by
  induction more generalizing t names with
  | nil => rw [List.append_nil, ← h, internAll, List.foldl_nil]
  | cons name more ih =>
    have hnext : (t.intern name).2.names = (names ++ [name]).eraseDups := by
      rw [names_intern, eraseDups_concat, h]
      simp only [List.mem_eraseDups]
    rw [← List.singleton_append, ← List.append_assoc]
    exact ih _ hnext

end ThreeAddress.Code.VarTable
