import Sweep.Proofs.Distinct
import Sweep.Proofs.Encoding
import Sweep.Proofs.Lines
import Sweep.Settings.Save
/-!
# Saved settings are loaded again

Settings can be saved if every include path is text and the lifetime, in whole seconds, fits. What
is loaded then is what was saved, every character of it, but for the fraction of a second and for
include paths that are the same as one before.
-/

namespace Sweep

namespace Settings

open Toml

/-! ## What is written -/

/-- A list of strings as a field. -/
def textsField (key : Key) (ts : List Text) : Field :=
  ⟨key, Written.strings ts, .array (ts.map .string)⟩

/-- A truth value as a field. -/
def flagField (key : Key) (b : Bool) : Field := ⟨key, Written.boolean b, .boolean b⟩

/-- The policy as a table, when its include paths are these texts. -/
def policyTable (p : Policy) (includes : List Text) : Table where
  key := "scan"
  fields := [textsField "include_paths" includes, textsField "exclude_paths" p.excludes,
    textsField "exclude_extensions" p.extensions, flagField "hard_drives" p.hardDiscs,
    flagField "optical_drives" p.opticalDiscs, flagField "removable_drives" p.removableDevices,
    flagField "network_drives" p.networkShares]

/-- The lifetime as a table, when it is this number of seconds. -/
def lifetimeTable (n : Nat) : Table where
  key := "cache"
  fields := [⟨"lifetime", Text.ofNat n, .integer n⟩]

/-- All keys that settings are written with. -/
def keys : List Key := ["scan", "include_paths", "exclude_paths", "exclude_extensions",
  "hard_drives", "optical_drives", "removable_drives", "network_drives", "cache", "lifetime"]

theorem isBare_of_mem {k : Key} (h : k ∈ keys) : IsBare k := by
  have hall : ∀ k ∈ keys, k.toList.isEmpty = false ∧ k.toList.all isBareKeyChar = true := by
    decide +kernel
  exact ⟨(hall k h).1, (hall k h).2⟩

theorem isSound_textsField {k : Key} (h : k ∈ keys) (ts : List Text) :
    (textsField k ts).IsSound :=
  ⟨isBare_of_mem h, denotes_strings ts⟩

theorem isSound_flagField {k : Key} (h : k ∈ keys) (b : Bool) : (flagField k b).IsSound :=
  ⟨isBare_of_mem h, denotes_boolean b⟩

theorem isSound_policyTable (p : Policy) (includes : List Text) :
    (policyTable p includes).IsSound := by
  constructor
  · exact isBare_of_mem (by simp [keys, policyTable])
  · simp only [policyTable, List.forall_mem_cons]
    refine ⟨isSound_textsField ?_ _, isSound_textsField ?_ _, isSound_textsField ?_ _,
      isSound_flagField ?_ _, isSound_flagField ?_ _, isSound_flagField ?_ _,
      isSound_flagField ?_ _, fun f hf => absurd hf List.not_mem_nil⟩
    all_goals simp [keys]
  · show ["include_paths", "exclude_paths", "exclude_extensions", "hard_drives",
      "optical_drives", "removable_drives", "network_drives"].Nodup
    decide

theorem isSound_lifetimeTable {n : Nat} (h : n ≤ 9223372036854775807) :
    (lifetimeTable n).IsSound := by
  constructor
  · exact isBare_of_mem (by simp [keys, lifetimeTable])
  · intro f hf
    obtain rfl := List.mem_singleton.1 hf
    exact ⟨isBare_of_mem (by simp [keys]), denotes_ofNat h⟩
  · exact List.pairwise_singleton _ _

/-- The include paths are these texts. -/
theorem mapM_text?_eq_some_iff {ps : List Path} {ts : List Text} :
    ps.mapM Path.text? = some ts ↔ ps = ts.map Path.ofText := by
  induction ps generalizing ts with
  | nil =>
    rw [List.mapM_nil]
    cases ts <;> simp
  | cons p ps ih =>
    rw [List.mapM_cons]
    cases ts with
    | nil => cases p.text? <;> cases ps.mapM Path.text? <;> simp
    | cons t ts =>
      rw [List.map_cons, List.cons.injEq, ← ih, ← Path.text?_eq_some_iff]
      cases p.text? <;> cases ps.mapM Path.text? <;> simp

theorem text_tables (p : Policy) (ts : List Text) (n : Nat) :
    Text.join ['\n'] [(policyTable p ts).text, (lifetimeTable n).text] =
      (Written.header "scan" ++
        Written.line "include_paths" (Written.strings ts) ++
        Written.line "exclude_paths" (Written.strings p.excludes) ++
        Written.line "exclude_extensions" (Written.strings p.extensions) ++
        Written.line "hard_drives" (Written.boolean p.hardDiscs) ++
        Written.line "optical_drives" (Written.boolean p.opticalDiscs) ++
        Written.line "removable_drives" (Written.boolean p.removableDevices) ++
        Written.line "network_drives" (Written.boolean p.networkShares)) ++
      '\n' :: (Written.header "cache" ++
        Written.line "lifetime" (Text.ofNat n)) := by
  simp [Text.join, Table.text, policyTable, lifetimeTable, Field.text, textsField, flagField]

theorem written?_eq_some_iff {s : Settings} {t : Text} : s.written? = some t ↔
    ∃ ts, s.policy.includes = ts.map Path.ofText ∧
      s.lifetime.roundedSeconds ≤ 9223372036854775807 ∧
      t = Text.join ['\n'] [(policyTable s.policy ts).text,
        (lifetimeTable s.lifetime.roundedSeconds).text] := by
  have hfit := Scalar.fitting?_ofNat s.lifetime.roundedSeconds
  simp only [text_tables, ← mapM_text?_eq_some_iff]
  rw [written?, writtenPolicy?, writtenLifetime?, hfit]
  cases s.policy.includes.mapM Path.text? with
  | none => simp
  | some us =>
    by_cases h : s.lifetime.roundedSeconds ≤ 9223372036854775807
    · simp [h, eq_comm]
    · simp [h]

/-! ## What is read -/

theorem texts?_strings (ts : List Text) : texts? (.array (ts.map .string)) = some ts := by
  rw [texts?]
  induction ts with
  | nil => rfl
  | cons t ts ih =>
    rw [List.map_cons, List.mapM_cons, ih]
    rfl

theorem ofValue?_tables (p : Policy) (ts : List Text) (n : Nat) :
    ofValue? (Document.ofTables 0 [policyTable p ts, lifetimeTable n]).toValue =
      some ⟨{ p with includes := ts.map Path.ofText }, .ofSeconds n⟩ := by
  rw [Document.toValue_ofTables]
  simp [ofValue?, member, member?, lookup, policyTable, lifetimeTable, policy?, lifetime?,
    textsField, flagField, paths?, texts?_strings, flag?, seconds?]

theorem load_written {s : Settings} {t : Text} (h : s.written? = some t) :
    load (.content t.bytes) = .ok {
      policy := s.policy.withDistinctIncludes
      lifetime := .ofSeconds s.lifetime.roundedSeconds } := by
  obtain ⟨ts, hi, hn, rfl⟩ := written?_eq_some_iff.1 h
  generalize s.lifetime.roundedSeconds = n at hn
  have hs : ∀ u ∈ [policyTable s.policy ts, lifetimeTable n], u.IsSound := by
    rw [List.forall_mem_cons, List.forall_mem_singleton]
    exact ⟨isSound_policyTable _ _, isSound_lifetimeTable hn⟩
  have hk : ([policyTable s.policy ts, lifetimeTable n].map Table.key).Nodup := by
    show ["scan", "cache"].Nodup
    decide
  have hp := Document.parse?_tables hs hk
  rw [List.map_cons, List.map_singleton] at hp
  have hv := ofValue?_tables s.policy ts n
  rw [← hi] at hv
  rw [load, Source.text, Utf8.strict?_eq_some_iff.2 rfl]
  simp only [fromDocument, hp, Option.bind_some, ofDocument?, hv, Option.map_some]

/-- Whether the settings can be written down: every include path is text, and the lifetime in whole
seconds, a half counted up, is a number of a document. -/
def IsWritable (s : Settings) : Prop :=
  (∀ p ∈ s.policy.includes, ∃ t, p = Path.ofText t) ∧
    (s.lifetime.nanoseconds + 500000000) / 1000000000 ≤ 9223372036854775807

/-- The rounding in numbers. -/
theorem roundedSeconds_eq (d : Duration) :
    d.roundedSeconds = (d.nanoseconds + 500000000) / 1000000000 := rfl

theorem isWritable_iff {s : Settings} : s.IsWritable ↔ ∃ t, s.written? = some t := by
  unfold IsWritable
  rw [← roundedSeconds_eq]
  constructor
  · rintro ⟨hp, hn⟩
    have : ∃ ts : List Text, s.policy.includes = ts.map Path.ofText := by
      generalize s.policy.includes = ps at hp
      induction ps with
      | nil => exact ⟨[], rfl⟩
      | cons p ps ih =>
        obtain ⟨t, rfl⟩ := hp p List.mem_cons_self
        obtain ⟨ts, rfl⟩ := ih fun q hq => hp q (List.mem_cons_of_mem _ hq)
        exact ⟨t :: ts, rfl⟩
    obtain ⟨ts, hi⟩ := this
    exact ⟨_, written?_eq_some_iff.2 ⟨ts, hi, hn, rfl⟩⟩
  · rintro ⟨t, h⟩
    obtain ⟨ts, hi, hn, -⟩ := written?_eq_some_iff.1 h
    refine ⟨fun p hp => ?_, hn⟩
    rw [hi] at hp
    obtain ⟨u, -, rfl⟩ := List.mem_map.1 hp
    exact ⟨u, rfl⟩

/-- Settings are saved exactly if they can be written down. What is loaded then are the same
settings, with the lifetime rounded to whole seconds and each include path only where it comes
first. -/
theorem load_save (s : Settings) :
    ((∃ t, s.save true = .ok t) ↔ s.IsWritable) ∧
    (¬s.IsWritable → ∀ directoryExists, s.save directoryExists = .error .unwritable) ∧
    ∀ t, s.save true = .ok t → ∃ includes, AreFirsts includes s.policy.includes ∧
      load (.content t.bytes) = .ok {
        policy := { s.policy with includes }
        lifetime := ⟨(s.lifetime.nanoseconds + 500000000) / 1000000000 * 1000000000⟩ } := by
  have hsave (t : Text) : s.save true = .ok t ↔ s.written? = some t := by
    rw [save]
    cases s.written? <;> simp
  refine ⟨?_, ?_, ?_⟩
  · simp only [hsave, isWritable_iff]
  · intro h directoryExists
    rw [isWritable_iff, not_exists] at h
    have hnone : s.written? = none := Option.eq_none_iff_forall_ne_some.2 h
    rw [save, hnone]
  · intro t ht
    have hl := load_written ((hsave t).1 ht)
    rw [Duration.ofSeconds, roundedSeconds_eq] at hl
    exact ⟨_, areFirsts_distinct s.policy.includes, hl⟩

/-- A path in two spellings, a rule with quotes, a backslash and a line break, and one second and a
half. -/
def mixed : Settings where
  policy := {
    includes := [.ofText "/b".toList, .ofText "/a".toList, .ofText "/b/".toList]
    excludes := ["\n/\"x\"\\*".toList] }
  lifetime := ⟨1500000000⟩

/-- An include path that is no text. -/
def unspeakable : Settings where
  policy := { includes := [⟨[0xFF]⟩] }

/-- The first settings are saved and loaded again, the others are not saved. -/
theorem mixed_saved_unspeakable_not :
    (∃ t includes, mixed.save true = .ok t ∧ AreFirsts includes mixed.policy.includes ∧
      load (.content t.bytes) = .ok {
        policy := { mixed.policy with includes }
        lifetime := ⟨2000000000⟩ }) ∧
    ¬unspeakable.IsWritable ∧ unspeakable.save true = .error .unwritable := by
  have hm : mixed.IsWritable := by
    constructor
    · intro p hp
      simp only [mixed, List.mem_cons, List.not_mem_nil, or_false] at hp
      rcases hp with rfl | rfl | rfl <;> exact ⟨_, rfl⟩
    · decide
  have hu : ¬unspeakable.IsWritable := by
    intro h
    obtain ⟨t, ht⟩ := h.1 ⟨[0xFF]⟩ (List.mem_singleton_self _)
    have hn : Path.text? ⟨[0xFF]⟩ = none := by decide
    rw [Path.text?_eq_some_iff.2 ht] at hn
    cases hn
  obtain ⟨t, ht⟩ := (load_save mixed).1.2 hm
  obtain ⟨includes, hf, hl⟩ := (load_save mixed).2.2 t ht
  exact ⟨⟨t, includes, ht, hf, hl⟩, hu, (load_save unspeakable).2.1 hu true⟩

end Settings

end Sweep
