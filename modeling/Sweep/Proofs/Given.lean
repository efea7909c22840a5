import Sweep.Settings
import Mathlib.Tactic.Choose
/-!
# What a document gives for each setting

The settings of a document whose groups are tables are read one by one: each is what its value in
its group reads as, or its default if there is no value (`ofDocument?_eq_some_iff`). Nothing else of
the document matters to them.
-/

namespace Sweep

open Toml

/-- What can be set. -/
inductive Setting where
  | includes
  | excludes
  | extensions
  | hardDiscs
  | opticalDiscs
  | removableDevices
  | networkShares
  | lifetime
  deriving DecidableEq, Repr

namespace Setting

/-- The group of a setting. -/
def group : Setting → Key
  | lifetime => "cache"
  | _ => "scan"

/-- The name of a setting in its group. -/
def name : Setting → Key
  | includes => "include_paths"
  | excludes => "exclude_paths"
  | extensions => "exclude_extensions"
  | hardDiscs => "hard_drives"
  | opticalDiscs => "optical_drives"
  | removableDevices => "removable_drives"
  | networkShares => "network_drives"
  | lifetime => "lifetime"

/-- Whether settings are the same in this one. -/
def Agree (s t : Settings) : Setting → Prop
  | includes => s.policy.includes = t.policy.includes
  | excludes => s.policy.excludes = t.policy.excludes
  | extensions => s.policy.extensions = t.policy.extensions
  | hardDiscs => s.policy.hardDiscs = t.policy.hardDiscs
  | opticalDiscs => s.policy.opticalDiscs = t.policy.opticalDiscs
  | removableDevices => s.policy.removableDevices = t.policy.removableDevices
  | networkShares => s.policy.networkShares = t.policy.networkShares
  | lifetime => s.lifetime = t.lifetime

open Settings (paths? texts? flag? seconds?) in
/-- Whether this setting is as a value gives it, or has its default if there is none. Include paths
are given each where it comes first. -/
def Reads (v : Option Value) (s : Settings) : Setting → Prop
  | includes => (v.elim (some []) paths?).map Path.distinct = some s.policy.includes
  | excludes => v.elim (some []) texts? = some s.policy.excludes
  | extensions => v.elim (some []) texts? = some s.policy.extensions
  | hardDiscs => v.elim (some false) flag? = some s.policy.hardDiscs
  | opticalDiscs => v.elim (some false) flag? = some s.policy.opticalDiscs
  | removableDevices => v.elim (some false) flag? = some s.policy.removableDevices
  | networkShares => v.elim (some false) flag? = some s.policy.networkShares
  | lifetime => v.elim (some ({} : Settings).lifetime) seconds? = some s.lifetime

variable {v : Option Value} {s t : Settings} {f : Setting}

theorem agree_of_reads (hs : f.Reads v s) (ht : f.Reads v t) : f.Agree s t := by
  cases f <;> exact Option.some.inj (Eq.trans (Eq.symm hs) ht)

theorem reads_none (f : Setting) : f.Reads none {} := by cases f <;> rfl

/-- Settings can be put together from those that are read one by one. -/
theorem exists_reads {given : Setting → Option Value}
    (h : ∀ f : Setting, ∃ s, f.Reads (given f) s) :
    ∃ s, ∀ f : Setting, f.Reads (given f) s := by
  choose own hown using h
  refine ⟨{
    policy := {
      includes := (own includes).policy.includes
      excludes := (own excludes).policy.excludes
      extensions := (own extensions).policy.extensions
      hardDiscs := (own hardDiscs).policy.hardDiscs
      opticalDiscs := (own opticalDiscs).policy.opticalDiscs
      removableDevices := (own removableDevices).policy.removableDevices
      networkShares := (own networkShares).policy.networkShares }
    lifetime := (own lifetime).lifetime }, fun f => ?_⟩
  cases f
  exacts [hown includes, hown excludes, hown extensions, hown hardDiscs, hown opticalDiscs,
    hown removableDevices, hown networkShares, hown lifetime]

end Setting

/-! ## Settings in a document -/

/-- Whether the item is a table, be it between braces. -/
def Toml.Item.isTable (item : Item) : Bool :=
  match item.toValue with
  | .table _ _ => true
  | _ => false

/-- Whether the item is a table that headers or keys with dots made, which others are laid into. -/
def Toml.Item.isOpen : Item → Bool
  | .table _ _ _ => true
  | _ => false

/-- What a document gives in a group; nothing if the group is no table. -/
def Toml.Document.groupEntries (doc : Document) (group : Key) : List (Key × Value) :=
  match (lookup group doc).map Item.toValue with
  | some (.table _ es) => es
  | _ => []

/-- The value that a document gives for a setting. -/
def Setting.given (doc : Document) (f : Setting) : Option Value :=
  lookup f.name (doc.groupEntries f.group)

theorem lookup_entriesToValues (k : Key) (es : Entries) :
    lookup k (entriesToValues es) = (lookup k es).map Item.toValue := by
  induction es with
  | nil => rfl
  | cons e es ih =>
    obtain ⟨j, item⟩ := e
    rw [entriesToValues, lookup, lookup, ih]
    split <;> rfl

namespace Settings

/-- Whether all groups that a document gives are tables. -/
def GivesTables (doc : Document) : Prop :=
  ∀ f : Setting, ∀ item ∈ lookup f.group doc, item.isTable = true

instance (doc : Document) : Decidable (GivesTables doc) :=
  decidable_of_iff
    (∀ group ∈ [Setting.includes.group, Setting.lifetime.group],
      ∀ item ∈ lookup group doc, item.isTable = true)
    ⟨fun h f => h f.group (by cases f <;> decide), fun h => by
      simpa using ⟨h .includes, h .lifetime⟩⟩

theorem member_table {α : Type} (d : Bool) (es : List (Key × Value)) (place : Nat) (name : Key)
    (default : α) (read : Value → Option α) :
    member (.table d es) place name default read = (lookup name es).elim (some default) read := by
  simp only [member, member?]
  cases lookup name es <;> rfl

/-- A group that is not given is as good as one without members. -/
theorem member_group {α : Type} {doc : Document} (f : Setting) (hg : GivesTables doc) (place : Nat)
    {default : α} {read : Value → Option α} (hread : ∀ d, read (.table d []) = some default) :
    ∃ d, member doc.toValue place f.group default read =
      read (.table d (doc.groupEntries f.group)) := by
  rw [Document.toValue, member_table, lookup_entriesToValues, Document.groupEntries]
  cases hl : lookup f.group doc with
  | none => exact ⟨false, (hread false).symm⟩
  | some item =>
    have ht := hg f item hl
    rw [Item.isTable] at ht
    simp only [Option.map_some, Option.elim_some]
    split at ht
    · next d es hv =>
      rw [hv]
      exact ⟨d, rfl⟩
    · cases ht

theorem policy?_table {d : Bool} {es : List (Key × Value)} {p : Policy} :
    policy? (.table d es) = some p ↔
      (lookup "include_paths" es).elim (some []) paths? = some p.includes ∧
      (lookup "exclude_paths" es).elim (some []) texts? = some p.excludes ∧
      (lookup "exclude_extensions" es).elim (some []) texts? = some p.extensions ∧
      (lookup "hard_drives" es).elim (some false) flag? = some p.hardDiscs ∧
      (lookup "optical_drives" es).elim (some false) flag? = some p.opticalDiscs ∧
      (lookup "removable_drives" es).elim (some false) flag? = some p.removableDevices ∧
      (lookup "network_drives" es).elim (some false) flag? = some p.networkShares := by
  simp only [policy?, member_table, Option.bind_eq_bind, Option.bind_eq_some_iff, Option.pure_def,
    Option.some.injEq]
  constructor
  · rintro ⟨_, h₁, _, h₂, _, h₃, _, h₄, _, h₅, _, h₆, _, h₇, rfl⟩
    exact ⟨h₁, h₂, h₃, h₄, h₅, h₆, h₇⟩
  · rintro ⟨h₁, h₂, h₃, h₄, h₅, h₆, h₇⟩
    exact ⟨_, h₁, _, h₂, _, h₃, _, h₄, _, h₅, _, h₆, _, h₇, rfl⟩

/-- The settings that a document gives are read one by one. -/
theorem ofDocument?_eq_some_iff {doc : Document} (hg : GivesTables doc) {s : Settings} :
    ofDocument? doc = some s ↔ ∀ f : Setting, f.Reads (f.given doc) s := by
  obtain ⟨d, hp⟩ : ∃ d, member doc.toValue 0 "scan" ({} : Settings).policy policy? =
      policy? (.table d (doc.groupEntries "scan")) := member_group .includes hg 0 fun _ => rfl
  obtain ⟨d', hl⟩ : ∃ d, member doc.toValue 1 "cache" ({} : Settings).lifetime lifetime? =
      lifetime? (.table d (doc.groupEntries "cache")) := member_group .lifetime hg 1 fun _ => rfl
  rw [lifetime?, member_table] at hl
  have hvalue (t : Settings) : ofValue? doc.toValue = some t ↔
      policy? (.table d (doc.groupEntries "scan")) = some t.policy ∧
      Setting.lifetime.Reads (Setting.lifetime.given doc) t := by
    simp only [ofValue?, hp, hl, Option.bind_eq_bind, Option.bind_eq_some_iff, Option.pure_def,
      Option.some.injEq]
    constructor
    · rintro ⟨_, h₁, _, h₂, rfl⟩
      exact ⟨h₁, h₂⟩
    · rintro ⟨h₁, h₂⟩
      exact ⟨_, h₁, _, h₂, rfl⟩
  rw [ofDocument?, Option.map_eq_some_iff]
  constructor
  · rintro ⟨t, ht, rfl⟩ f
    obtain ⟨ht, h₈⟩ := (hvalue t).1 ht
    obtain ⟨h₁, h₂, h₃, h₄, h₅, h₆, h₇⟩ := policy?_table.1 ht
    cases f
    exacts [Option.map_eq_some_iff.2 ⟨_, h₁, rfl⟩, h₂, h₃, h₄, h₅, h₆, h₇, h₈]
  · intro h
    obtain ⟨includes, hi, hd⟩ := Option.map_eq_some_iff.1 (h .includes)
    refine ⟨{ s with policy := { s.policy with includes } }, (hvalue _).2 ⟨?_, h .lifetime⟩, ?_⟩
    · exact policy?_table.2 ⟨hi, h .excludes, h .extensions, h .hardDiscs, h .opticalDiscs,
        h .removableDevices, h .networkShares⟩
    · simp only [Policy.withDistinctIncludes, hd]

/-! ## Values that give no setting -/

theorem texts?_eq_none {vs : List Value} {v : Value} (hv : v ∈ vs) (h : text? v = none) :
    texts? (.array vs) = none := by
  rw [texts?]
  induction vs with
  | nil => cases hv
  | cons w vs ih =>
    rw [List.mapM_cons]
    rcases List.mem_cons.1 hv with rfl | hv
    · rw [h]
      rfl
    · rw [ih hv]
      cases text? w <;> rfl

/-- No setting is a table. -/
theorem not_reads_table (f : Setting) (d : Bool) (es : List (Key × Value)) (s : Settings) :
    ¬f.Reads (some (.table d es)) s := by
  intro h
  cases f <;> cases h

theorem texts?_tables {ts : List (Nat × Entries)} (hne : ts ≠ []) :
    texts? (Item.tables ts).toValue = none := by
  obtain ⟨t, ts, rfl⟩ := List.exists_cons_of_ne_nil hne
  refine texts?_eq_none (v := .table false (entriesToValues t.2)) ?_ rfl
  simp [elementsToValues]

/-- No setting is a list of tables. -/
theorem not_reads_tables (f : Setting) {ts : List (Nat × Entries)} (hne : ts ≠ []) (s : Settings) :
    ¬f.Reads (some (Item.tables ts).toValue) s := by
  have htexts := texts?_tables hne
  intro h
  cases f with
  | includes =>
    simp only [Setting.Reads, Option.elim_some, paths?, htexts] at h
    cases h
  | excludes | extensions =>
    simp only [Setting.Reads, Option.elim_some, htexts] at h
    cases h
  | hardDiscs | opticalDiscs | removableDevices | networkShares | lifetime => cases h

/-! ## Groups -/

variable {doc : Document} {f : Setting}

theorem given_congr {doc' : Document} (h : lookup f.group doc' = lookup f.group doc) :
    f.given doc' = f.given doc := by
  simp only [Setting.given, Document.groupEntries, h]

theorem given_table {o : Origin} {p : Option Nat} {es : Entries}
    (h : lookup f.group doc = some (.table o p es)) :
    f.given doc = (lookup f.name es).map Item.toValue := by
  simp only [Setting.given, Document.groupEntries, h, Option.map_some, Item.toValue,
    lookup_entriesToValues]

theorem given_none (h : lookup f.group doc = none) : f.given doc = none := by
  simp only [Setting.given, Document.groupEntries, h, Option.map_none, lookup]

end Settings

end Sweep
