import Sweep.Plan.Admission
import Sweep.Proofs.Covering
import Sweep.Proofs.Reachable
/-!
# Pruned directories

When a directory is not let in, the walk does not look into it. Here we prove that nothing is lost
in this way: whatever keeps a directory out, unless it is a root of its own, keeps out all paths
below it, too. There is one argument for each reason; the last section puts them together, and says
it of every path below a pruned directory (`pruned_directory_closed`).
-/

namespace Sweep.Plan

variable {plan : Plan}

/-! ## One reason after the other -/

theorem rulesExclude_below {dir : Text} (h : plan.rulesExclude dir true = true) (rest : Text)
    (isDirectory : Bool) : plan.rulesExclude (dir ++ '/' :: rest) isDirectory = true := by
  obtain ⟨ha, hc⟩ := RuleSet.covers_child h rest
  cases isDirectory with
  | false => exact ha
  | true => exact hc

theorem stemsExclude_iff {t : Text} {isDirectory : Bool} :
    plan.stemsExclude t isDirectory = true ↔ ∃ stem ∈ plan.stemExclusions,
      stemCovers stem t isDirectory = true ∧ plan.stemCounts stem = true := by
  simp [stemsExclude]

theorem stemCovers_of_prefix {stem path : Text} (h : stem <+: path) (isDirectory : Bool) :
    stemCovers stem path isDirectory = true := by
  simp [stemCovers, List.isPrefixOf_iff_prefix.2 h]

theorem stemsExclude_of_prefix {stem path : Text} (hs : stem ∈ plan.stemExclusions)
    (hp : stem <+: path) (hc : plan.stemCounts stem = true) (isDirectory : Bool) :
    plan.stemsExclude path isDirectory = true :=
  stemsExclude_iff.2 ⟨stem, hs, stemCovers_of_prefix hp isDirectory, hc⟩

theorem stemsExclude_below {dir : Text} (h : plan.stemsExclude dir true = true) (rest : Text)
    (isDirectory : Bool) : plan.stemsExclude (dir ++ '/' :: rest) isDirectory = true := by
  obtain ⟨stem, hs, hcov, hc⟩ := stemsExclude_iff.1 h
  refine stemsExclude_of_prefix hs ?_ hc isDirectory
  rcases stemCovers_iff.1 hcov with hp | rfl
  · exact hp.trans (List.prefix_append _ _)
  · exact prefix_below dir rest

/-- A path that is set aside exactly is a stem for the paths below it. -/
theorem exact_below {policy : Policy} {mounts : List Mount} (hr : Reachable policy mounts plan)
    {dir : Text} (h : dir ∈ plan.exactExclusions) (hl : plan.rootLength ≤ dir.byteLength)
    (rest : Text) (isDirectory : Bool) :
    plan.stemsExclude (dir ++ '/' :: rest) isDirectory = true := by
  refine stemsExclude_of_prefix (hr.stem_of_exact h) (prefix_below dir rest) ?_ isDirectory
  rw [stemCounts, Text.byteLength_append, Bool.or_eq_true, decide_eq_true_eq]
  exact .inr (Nat.le_trans hl (Nat.le_add_right _ _))

theorem isOnBarredMount_iff {p : Path} : plan.isOnBarredMount p = true ↔
    ∃ l ∈ plan.barredMounts, p.isUnder l.path = true ∧ plan.rootLength < l.path.byteLength := by
  have hl (l : Location) : p.location.isUnder l = p.isUnder l.path := by
    rw [← Location.isUnder_location, l.location_path]
  simp [isOnBarredMount, hl]

theorem isOnBarredMount_below {d p : Path} (h : plan.isOnBarredMount d = true)
    (hp : p.isUnder d = true) : plan.isOnBarredMount p = true := by
  obtain ⟨l, hl, hu, hlen⟩ := isOnBarredMount_iff.1 h
  exact isOnBarredMount_iff.2 ⟨l, hl, Path.isUnder_trans hp hu, hlen⟩

/-! ## All reasons -/

/-- Why a path is kept out. -/
theorem admits_eq_false_iff {p : Path} {isDirectory : Bool} :
    plan.admits p isDirectory = false ↔ plan.rulesExclude p.text isDirectory = true ∨
      p.text ∈ plan.exactExclusions ∨ plan.stemsExclude p.text isDirectory = true ∨
      plan.isOtherRoot p = true ∨
      plan.rootIsExplicit = false ∧ plan.isOnBarredMount p = true := by
  simp only [admits, Bool.and_eq_false_iff, Bool.not_eq_false', Bool.or_eq_false_iff,
    List.contains_iff_mem, or_assoc]

section Below

variable {policy : Policy} {mounts : List Mount} {root : Root} {ms ns : List (List UInt8)}

/-- What keeps a directory below the current root out, and is no other root, keeps out every path
that goes on from the directory. -/
theorem admits_beyond (hr : Reachable policy mounts plan) (hc : plan.current = some root)
    (hd : plan.admitsDirectory (root.path.extend ms) = false)
    (ho : plan.isOtherRoot (root.path.extend ms) = false) {p : Path}
    (hp : p.GoesOnFrom (root.path.extend ms)) (isDirectory : Bool) :
    plan.admits p isDirectory = false := by
  obtain ⟨rest, ht⟩ := Path.text_of_goesOnFrom hp
  have hlen : plan.rootLength ≤ (root.path.extend ms).text.byteLength := by
    rw [rootLength, hc]
    exact Nat.le_trans (Path.length_le_extend root.path ms) (Path.length_le_text _)
  rw [admits_eq_false_iff, ht]
  rcases admits_eq_false_iff.1 hd with h | h | h | h | ⟨he, h⟩
  · exact .inl (rulesExclude_below h rest isDirectory)
  · exact .inr (.inr (.inl (exact_below hr h hlen rest isDirectory)))
  · exact .inr (.inr (.inl (stemsExclude_below h rest isDirectory)))
  · rw [ho] at h
    cases h
  · have hu := Path.isUnder_of_goesOnFrom hp
    exact .inr (.inr (.inr (.inr ⟨he, isOnBarredMount_below h hu⟩)))

/-- What keeps a directory below the current root out, and is no other root, keeps out all that a
walk would find below the directory. -/
theorem admits_below (hr : Reachable policy mounts plan) (hc : plan.current = some root)
    (hms : ∀ n ∈ ms, Path.IsName n) (hm : ms ≠ []) (hn : ns ≠ [])
    (hd : plan.admitsDirectory (root.path.extend ms) = false)
    (ho : plan.isOtherRoot (root.path.extend ms) = false) (isDirectory : Bool) :
    plan.admits (root.path.extend (ms ++ ns)) isDirectory = false := by
  rw [Path.extend_append]
  have hp := Path.goesOnFrom_extend (Path.isOpen_extend root.path hm hms) hn
  exact admits_beyond hr hc hd ho hp isDirectory

/-- Below a mount that is not handed out because a stem covers it, a mount root lets nothing in. -/
theorem admits_below_suppressed (hr : Reachable policy mounts plan) (hc : plan.current = some root)
    (hms : ∀ n ∈ ms, Path.IsName n) (hm : ms ≠ []) (hn : ns ≠ []) (hk : root.isExplicit = false)
    (hs : plan.isSuppressed (root.path.extend ms).location = true) (isDirectory : Bool) :
    plan.admits (root.path.extend (ms ++ ns)) isDirectory = false := by
  have hstem : plan.stemsExclude (root.path.extend ms).text true = true := by
    rw [isSuppressed, Path.path_location, Path.normal_extend (hr.kept hc).normal hms,
      List.any_eq_true] at hs
    obtain ⟨stem, hmem, hcov⟩ := hs
    exact stemsExclude_iff.2 ⟨stem, hmem, hcov, by simp [stemCounts, rootIsExplicit, hc, hk]⟩
  obtain ⟨rest, ht⟩ := Path.text_extend (Path.isOpen_extend root.path hm hms) hn
  rw [Path.extend_append, admits_eq_false_iff, ht]
  exact .inr (.inr (.inl (stemsExclude_below hstem rest isDirectory)))

/-- While a root is current, take a directory that a walk of the root comes to, and that is no
pending root and none that was handed out. If it is not let in, no path below it is let in, neither
as a file nor as a directory: none in its shortest spelling, and none that is spelled as the
directory with a separator and any more bytes behind it. -/
theorem pruned_directory_closed (hr : Reachable policy mounts plan) (hc : plan.current = some root)
    (hms : ∀ n ∈ ms, Path.IsName n) (hm : ms ≠ [])
    (hd : plan.admitsDirectory (root.path.extend ms) = false)
    (hpending : (root.path.extend ms).location ∉ plan.pendingMounts ∧
      (root.path.extend ms).location ∉ plan.pendingIncludes)
    (hout : (root.path.extend ms).location ∉ plan.handedOut) (p : Path)
    (hp : p.normal = p ∧ p.isBelow (root.path.extend ms) = true ∨
      p.GoesOnFrom (root.path.extend ms)) :
    plan.admitsFile p = false ∧ plan.admitsDirectory p = false := by
  have hdir := Path.normal_extend (hr.kept hc).normal hms
  have ho : plan.isOtherRoot (root.path.extend ms) = false := by
    rw [Bool.eq_false_iff, Ne, isOtherRoot_iff hc]
    rintro (h | h | ⟨h, -⟩)
    · exact hpending.1 h
    · exact hpending.2 h
    · exact hout h
  have hgoes : p.GoesOnFrom (root.path.extend ms) := by
    rcases hp with ⟨hn, hb⟩ | hp
    · exact Path.goesOnFrom_of_isBelow hn hdir (Path.isOpen_extend root.path hm hms) hb
    · exact hp
  exact ⟨admits_beyond hr hc hd ho hgoes false, admits_beyond hr hc hd ho hgoes true⟩

/-- Sets one path aside, whose name shows as a replacement character. -/
def withoutBroken : Policy := { excludes := ["/\uFFFD".toList] }

/-- A directory whose name is no text shows as the path that is set aside. It is kept out, and so is
what lies below it, for which the path is a stem. -/
theorem broken_directory_closed :
    ((ofPolicy withoutBroken []).next.2.current = some ⟨Path.root, .explicit⟩ ∧
      (ofPolicy withoutBroken []).next.2.admitsDirectory (Path.root.extend [[0xFF]]) = false) ∧
    (ofPolicy withoutBroken []).next.2.admitsFile ⟨[0x2F, 0xFF, 0x2F, 0x61]⟩ = false := by
  have hc : (ofPolicy withoutBroken []).next.2.current = some ⟨Path.root, .explicit⟩ := by
    decide +kernel
  have hd : (ofPolicy withoutBroken []).next.2.admitsDirectory (Path.root.extend [[0xFF]]) =
      false := by decide +kernel
  refine ⟨⟨hc, hd⟩, (pruned_directory_closed Reachable.made.next hc ?_ (by simp) hd
    ⟨by decide +kernel, by decide +kernel⟩ (by decide +kernel) _ (.inl ⟨?_, ?_⟩)).1⟩
  · simp [Path.IsName, Path.dot, Path.slash]
  · decide +kernel
  · decide +kernel

end Below

end Sweep.Plan
