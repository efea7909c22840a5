import Sweep.Proofs.Doubling
/-!
# How doubled documents are written

The headers in the tables of a list have numbers of their own, all different, so where these tables
stand in a list twice, the two copies of each header are written directly one after the other
(`Entries.Double.statements`), with the values below each.
-/

namespace Sweep.Toml

variable {es es' : Entries} {ts : List (Nat × Entries)} {b c : Bool}

/-- The sections that have statements. -/
def written (ss : List Section) : List Section := ss.filter fun s => !s.statements.isEmpty

/-- Whether a section is that of a table with a header, not of a table in a list. -/
def Section.isTable (s : Section) : Bool :=
  match s.statements with
  | .header _ :: _ => true
  | _ => false

/-- A section as often as it is told to stand there. -/
def copies (x : Section × Bool) : List Section := if x.2 then [x.1, x.1] else [x.1]

/-- Whether some sections have, at each place, those of others, some of them twice, and whether none
of these is that of a table with a header. -/
def Doubled (b : Bool) (ss ss' : List Section) : Prop :=
  ∃ xs : List (Section × Bool), xs.map Prod.fst = written ss ∧
    (∀ n, (written ss').filter (·.place = n) = (xs.flatMap copies).filter (·.place = n)) ∧
    (b = true ↔ ∀ x ∈ xs, x.2 = true → x.1.isTable = false)

variable {ss ss' tt tt' : List Section}

theorem written_append : written (ss ++ tt) = written ss ++ written tt := List.filter_append ..

theorem Doubled.refl (ss : List Section) : Doubled true ss ss := by
  refine ⟨(written ss).map (·, false), by simp [Function.comp_def], fun n => ?_, by simp⟩
  simp [copies, List.flatMap_map]

theorem Doubled.append (h : Doubled b ss ss') (h' : Doubled c tt tt') :
    Doubled (b && c) (ss ++ tt) (ss' ++ tt') := by
  obtain ⟨xs, hfst, hplace, hb⟩ := h
  obtain ⟨ys, hfst', hplace', hc⟩ := h'
  refine ⟨xs ++ ys, ?_, fun n => ?_, ?_⟩
  · rw [List.map_append, hfst, hfst', written_append]
  · rw [written_append, List.filter_append, hplace, hplace', List.flatMap_append,
      List.filter_append]
  · rw [Bool.and_eq_true, hb, hc, List.forall_mem_append]

/-- Of sections that stand at different places each has its copy next to it. -/
theorem filter_append_self (h : (ss.map Section.place).Nodup) (n : Nat) :
    (ss ++ ss).filter (·.place = n) =
      ((ss.map (·, true)).flatMap copies).filter (·.place = n) := by
  induction ss with
  | nil => rfl
  | cons s ss ih =>
    rw [List.map_cons, List.nodup_cons] at h
    have ih := ih h.2
    rw [List.filter_append] at ih ⊢
    rw [List.map_cons, List.flatMap_cons, List.filter_append, ← ih]
    by_cases hs : s.place = n
    · have hnone : ss.filter (·.place = n) = [] := by
        refine List.filter_eq_nil_iff.2 fun t ht => ?_
        have hne : t.place ≠ n := fun heq => h.1 (List.mem_map.2 ⟨t, ht, heq.trans hs.symm⟩)
        simpa using hne
      simp [copies, hs, hnone]
    · simp [copies, hs]

theorem Doubled.twice (h : ((written ss).map Section.place).Nodup)
    (hb : b = true ↔ ∀ s ∈ written ss, s.isTable = false) : Doubled b ss (ss ++ ss) := by
  refine ⟨(written ss).map (·, true), by simp [Function.comp_def], fun n => ?_, ?_⟩
  · rw [written_append, filter_append_self h]
  · simpa using hb

theorem earlierSections_append_list (path : List Key) (ts ts' : List (Nat × Entries)) :
    earlierSections path (ts ++ ts') [] =
      earlierSections path ts' [] ++ earlierSections path ts [] := by
  induction ts with
  | nil => simp [earlierSections]
  | cons t ts ih =>
    rw [List.cons_append, earlierSections, earlierSections, earlierSections_append, ih,
      earlierSections_append ts path (_ :: _), List.append_assoc]

/-! ## The sections of tidy tables -/

theorem written_cons_of_ne_nil {s : Section} (h : s.statements ≠ []) :
    written (s :: ss) = s :: written ss := by
  simp [written, h]

/-- A table that is only implied has no section with statements. -/
theorem written_implied {n : Nat} (h : ∀ m, entriesTidy n m es) (place : Nat) (path : List Key)
    (ss : List Section) : written (Section.ofTable place path .implied es :: ss) = written ss := by
  have hvalues := entryAssignments_eq_nil es [] (Nat.le_refl _) (h depthLimit)
  simp [written, Section.ofTable, hvalues]

mutual

/-- Each section with statements stands at the number of a header, each of these once. -/
theorem Item.places_written : (item : Item) → (path : List Key) → (last : Nat) → {n m : Nat} →
    item.IsTidy n m →
    ((written (item.sections path last).1).map Section.place).Perm item.places
  | .value _, _, _, _, _, _ => .nil
  | .table .dotted _ es, path, last, _, _, ⟨hp, h⟩ => by
    obtain rfl := hp
    exact places_written_entries es path last h
  | .table .header (some p) es, path, last, _, _, ⟨_, _, h⟩ => by
    simp only [Item.sections]
    rw [written_cons_of_ne_nil (by simp [Section.ofTable])]
    exact (places_written_entries es path p h).cons p
  | .table .implied p es, path, last, _, _, ⟨hp, h⟩ => by
    obtain rfl := hp
    simp only [Item.sections, Option.getD_none, written_implied h]
    exact places_written_entries es path last (h 0)
  | .tables ts, path, last, _, _, ⟨_, h⟩ => by
    rw [sections_tables]
    exact places_written_elements ts path h

theorem places_written_entries : (es : Entries) → (path : List Key) → (last : Nat) → {n m : Nat} →
    entriesTidy n m es →
    ((written (entrySections path last es).1).map Section.place).Perm (entriesPlaces es)
  | [], _, _, _, _, _ => .nil
  | (k, item) :: es, path, last, _, _, ⟨hi, h⟩ => by
    simp only [entrySections, written_append, List.map_append, entriesPlaces]
    exact (item.places_written _ last hi).append (places_written_entries es path _ h)

theorem places_written_elements : (ts : List (Nat × Entries)) → (path : List Key) → {n : Nat} →
    elementsTidy n ts →
    ((written (earlierSections path ts [])).map Section.place).Perm (elementsPlaces ts)
  | [], _, _, _ => .nil
  | (p, es) :: ts, path, _, ⟨h, hts⟩ => by
    rw [earlierSections, earlierSections_append, List.append_nil, written_append,
      written_cons_of_ne_nil (by simp [Section.ofElement]), List.map_append, elementsPlaces]
    refine List.perm_append_comm.trans ?_
    exact ((places_written_entries es path p h).append (places_written_elements ts path hts)).cons p

end

mutual

/-- The sections of what is flat are not those of tables with headers. -/
theorem Item.isTable_written : (item : Item) → (path : List Key) → (last : Nat) → {n m : Nat} →
    item.IsTidy n m → (item.isFlat = true ↔
      ∀ s ∈ written (item.sections path last).1, s.isTable = false)
  | .value _, _, _, _, _, _ => by simp [Item.isFlat, Item.sections, written]
  | .table .dotted _ es, path, last, _, _, ⟨_, h⟩ => by
    rw [Item.isFlat, Item.sections, ← isTable_written_entries es path last h]
    simp
  | .table .header p es, path, last, _, _, _ => by
    simp only [Item.sections]
    rw [written_cons_of_ne_nil (by simp [Section.ofTable])]
    simp [Item.isFlat, Section.ofTable, Section.isTable]
  | .table .implied p es, path, last, _, _, ⟨_, h⟩ => by
    simp only [Item.sections, written_implied h]
    rw [← isTable_written_entries es path (p.getD last) (h 0)]
    simp [Item.isFlat]
  | .tables ts, path, last, _, _, ⟨_, h⟩ => by
    rw [sections_tables]
    exact isTable_written_elements ts path h

theorem isTable_written_entries : (es : Entries) → (path : List Key) → (last : Nat) →
    {n m : Nat} → entriesTidy n m es → (entriesFlat es = true ↔
      ∀ s ∈ written (entrySections path last es).1, s.isTable = false)
  | [], _, _, _, _, _ => by simp [entriesFlat, entrySections, written]
  | (k, item) :: es, path, last, _, _, ⟨hi, h⟩ => by
    simp only [entrySections, written_append, entriesFlat, Bool.and_eq_true]
    rw [List.forall_mem_append, item.isTable_written _ last hi, isTable_written_entries es path _ h]

theorem isTable_written_elements : (ts : List (Nat × Entries)) → (path : List Key) → {n : Nat} →
    elementsTidy n ts → (elementsFlat ts = true ↔
      ∀ s ∈ written (earlierSections path ts []), s.isTable = false)
  | [], _, _, _ => by simp [elementsFlat, earlierSections, written]
  | (p, es) :: ts, path, _, ⟨h, hts⟩ => by
    have helement : (Section.ofElement p path es).isTable = false := rfl
    rw [earlierSections, earlierSections_append, List.append_nil, written_append,
      written_cons_of_ne_nil (by simp [Section.ofElement]), List.forall_mem_append,
      List.forall_mem_cons, ← isTable_written_entries es path p h,
      ← isTable_written_elements ts path hts, elementsFlat, Bool.and_eq_true]
    tauto

end

/-! ## The sections of doubled items -/

theorem sections_tables_last (path : List Key) (last : Nat) {ts ts' : List (Nat × Entries)}
    (h : ts.head? = ts'.head?) :
    ((Item.tables ts).sections path last).2 = ((Item.tables ts').sections path last).2 := by
  match ts, ts' with
  | [], [] => rfl
  | t :: ts, t' :: ts' =>
    obtain rfl : t = t' := Option.some.inj h
    rfl
  | [], _ :: _ | _ :: _, [] => cases h

theorem ofTable_congr (place : Nat) (path : List Key) (o : Origin)
    (h : entryAssignments [] es' = entryAssignments [] es) :
    Section.ofTable place path o es' = Section.ofTable place path o es := by
  simp only [Section.ofTable, h]

mutual

theorem Item.Doubles.assignments : {b : Bool} → {i i' : Item} → Item.Doubles b i i' →
    (keys : List Key) → i'.assignments keys = i.assignments keys
  | _, _, _, .value _, _ | _, _, _, .tables _, _ | _, _, _, .twice _ _ _ _ _, _ => rfl
  | _, _, _, .table .dotted _ h, keys => h.assignments keys
  | _, _, _, .table .header _ _, _ | _, _, _, .table .implied _ _, _ => rfl

theorem Entries.Double.assignments : {b : Bool} → {es es' : Entries} → Entries.Double b es es' →
    (keys : List Key) → entryAssignments keys es' = entryAssignments keys es
  | _, _, _, .nil, _ => rfl
  | _, _, _, .cons k hi h, keys => by
    rw [entryAssignments, entryAssignments, hi.assignments, h.assignments]

end

mutual

theorem Item.Doubles.sections : {b : Bool} → {i i' : Item} → Item.Doubles b i i' →
    (path : List Key) → (last : Nat) →
    Doubled b (i.sections path last).1 (i'.sections path last).1 ∧
      (i'.sections path last).2 = (i.sections path last).2
  | _, _, _, .value v, path, last => ⟨.refl _, rfl⟩
  | _, _, _, .table .dotted p h, path, last => h.sections path last
  | _, _, _, .table .header p h, path, last => by
    obtain ⟨hs, hl⟩ := h.sections path (p.getD last)
    simp only [Item.sections, ofTable_congr _ _ _ (h.assignments [])]
    exact ⟨(Doubled.refl [_]).append hs, hl⟩
  | _, _, _, .table .implied p h, path, last => by
    obtain ⟨hs, hl⟩ := h.sections path (p.getD last)
    simp only [Item.sections, ofTable_congr _ _ _ (h.assignments [])]
    exact ⟨(Doubled.refl [_]).append hs, hl⟩
  | _, _, _, .tables ts, path, last => ⟨.refl _, rfl⟩
  | _, _, _, .twice later ts earlier ht hp, path, last => by
    refine ⟨?_, sections_tables_last path last ?_⟩
    · have htwice : Doubled (elementsFlat ts) (earlierSections path ts [])
          (earlierSections path ts [] ++ earlierSections path ts []) :=
        .twice ((places_written_elements ts path ht).nodup_iff.2 hp)
          (isTable_written_elements ts path ht)
      have hall := ((Doubled.refl (earlierSections path earlier [])).append htwice).append
        (Doubled.refl (earlierSections path later []))
      simp only [sections_tables, earlierSections_append_list]
      simpa using hall
    · cases later with
      | cons => rfl
      | nil => cases ts <;> rfl

theorem Entries.Double.sections : {b : Bool} → {es es' : Entries} → Entries.Double b es es' →
    (path : List Key) → (last : Nat) →
    Doubled b (entrySections path last es).1 (entrySections path last es').1 ∧
      (entrySections path last es').2 = (entrySections path last es).2
  | _, _, _, .nil, _, _ => ⟨.refl _, rfl⟩
  | _, _, _, .cons k hi h, path, last => by
    obtain ⟨hs, hl⟩ := hi.sections (path ++ [k]) last
    simp only [entrySections, hl]
    obtain ⟨hss, hls⟩ := h.sections path _
    exact ⟨hs.append hss, hls⟩

end

/-! ## The statements of doubled documents -/

/-- Two copies at one place are written one after the other. -/
theorem Doubled.inPlaces (h : Doubled b ss ss') : ∃ xs : List (Section × Bool),
    xs.map Prod.fst = inPlaces Section.place (written ss) ∧
    xs.flatMap copies = inPlaces Section.place (written ss') ∧
    (b = true ↔ ∀ x ∈ xs, x.2 = true → x.1.isTable = false) := by
  obtain ⟨xs, hfst, hplace, hb⟩ := h
  let place (x : Section × Bool) : Nat := x.1.place
  have hcopies : ∀ x, ∀ s ∈ copies x, s.place = place x := by
    rintro ⟨s, _ | _⟩ t ht <;> simp_all [copies, place]
  refine ⟨Sweep.inPlaces place xs, ?_, ?_, ?_⟩
  · rw [← hfst, inPlaces_map fun _ => rfl]
  · rw [← inPlaces_flatMap hcopies]
    refine eq_of_pairwise_of_filter (pairwise_inPlaces _ _) (pairwise_inPlaces _ _) fun n => ?_
    rw [filter_inPlaces, filter_inPlaces, hplace]
  · rw [hb]
    simp only [mem_inPlaces]

/-- Whether the statements of a section are a header and assignments. -/
def Section.IsBlock (s : Section) : Prop :=
  ∃ head values, s.statements = head :: values ∧ head.isHeader = true ∧
    ∀ v ∈ values, v.isHeader = false

theorem isBlock_of_mem_written {s : Section} {path : List Key} {last : Nat}
    (h : s ∈ written (entrySections path last es).1) : s.IsBlock := by
  obtain ⟨hs, hne⟩ := List.mem_filter.1 h
  refine forall_mem_entrySections (P := fun s => s.statements ≠ [] → s.IsBlock) ?_ ?_ es path last
    s hs (by simpa using hne)
  · intro place path o es hne
    simp only [Section.ofTable] at hne ⊢
    split at hne
    · exact absurd rfl hne
    · next h =>
      rw [if_neg h]
      exact ⟨_, _, rfl, rfl, isHeader_of_mem_entryAssignments es []⟩
  · intro place path es _
    exact ⟨_, _, rfl, rfl, isHeader_of_mem_entryAssignments es []⟩

theorem flatMap_written (ss : List Section) :
    (written ss).flatMap (·.statements) = ss.flatMap (·.statements) := by
  induction ss with
  | nil => rfl
  | cons s ss ih =>
    by_cases hs : s.statements = []
    · have hnil : written (s :: ss) = written ss := by simp [written, hs]
      rw [hnil, ih, List.flatMap_cons, hs, List.nil_append]
    · rw [written_cons_of_ne_nil hs, List.flatMap_cons, List.flatMap_cons, ih]

/-- A document is written as its own values and then the sections of its tables. -/
theorem Document.statements_eq (doc : Document) : doc.statements = entryAssignments [] doc ++
    (inPlaces Section.place (written (entrySections [] 0 doc).1)).flatMap (·.statements) := by
  have hsections : doc.sections =
      ⟨0, entryAssignments [] doc⟩ :: inPlaces Section.place (entrySections [] 0 doc).1 :=
    inPlaces_cons _ fun s _ => Nat.zero_le _
  have hfilter : inPlaces Section.place (written (entrySections [] 0 doc).1) =
      written (inPlaces Section.place (entrySections [] 0 doc).1) := inPlaces_filter _ _
  rw [statements, hsections, List.flatMap_cons, hfilter, flatMap_written]

/-- The sections of a document that is the other but for tables that stand there twice are those of
the other, the ones of these tables twice in a row. -/
theorem Entries.Double.statements {doc doc' : Document} (h : Entries.Double b doc doc') :
    ∃ xs : List (Section × Bool), (∀ x ∈ xs, x.1.IsBlock) ∧
      Document.statements doc = entryAssignments [] doc ++ xs.flatMap (·.1.statements) ∧
      Document.statements doc' =
        entryAssignments [] doc ++ xs.flatMap (fun x => (copies x).flatMap (·.statements)) ∧
      (b = true ↔ ∀ x ∈ xs, x.2 = true → x.1.isTable = false) := by
  obtain ⟨xs, hfst, hcopies, hb⟩ := (h.sections [] 0).1.inPlaces
  refine ⟨xs, fun x hx => ?_, ?_, ?_, hb⟩
  · have hmem : x.1 ∈ inPlaces Section.place (written (entrySections [] 0 doc).1) :=
      hfst ▸ List.mem_map_of_mem hx
    exact isBlock_of_mem_written (mem_inPlaces.1 hmem)
  · rw [Document.statements_eq, ← hfst, List.flatMap_map]
  · rw [Document.statements_eq, ← hcopies, h.assignments, List.flatMap_assoc]

end Sweep.Toml
