import Statecraft.Report
import Statecraft.Proofs.Tiling

/-! The report that explains a failure best, out of many. Choosing between two at a time from the
left comes to the gravest report that starts last and then ends first, with what all reports like
it expected, in whatever order they come. -/
namespace Statecraft

theorem Location.lt_trans {a b c : Location} (first : a < b) (second : b < c) : a < c :=
  lt_of_lt_of_le first (le_of_lt second)

theorem Location.lt_or_eq_or_gt (a b : Location) : a < b ∨ a = b ∨ b < a := by
  obtain ⟨line, column⟩ := a
  obtain ⟨line', column'⟩ := b
  simp only [lt_def, mk.injEq]
  omega

theorem Location.lt_asymm {a b : Location} (less : a < b) : ¬b < a :=
  fun more => lt_irrefl a (lt_trans less more)

/-- The other range starts later, or it starts at the same place and ends earlier. -/
def Selection.Trails (a b : Selection) : Prop :=
  a.start < b.start ∨ a.start = b.start ∧ b.stop < a.stop

namespace Selection.Trails

variable {a b c : Selection}

theorem irrefl (a : Selection) : ¬a.Trails a := by
  rintro (less | ⟨-, less⟩) <;> exact Location.lt_irrefl _ less

theorem ne (trails : a.Trails b) : a ≠ b := by
  rintro rfl
  exact irrefl a trails

theorem trans (first : a.Trails b) (second : b.Trails c) : a.Trails c := by
  rcases first with less | ⟨same, less⟩ <;> rcases second with less' | ⟨same', less'⟩
  · exact .inl (Location.lt_trans less less')
  · exact .inl (same' ▸ less)
  · exact .inl (same ▸ less')
  · exact .inr ⟨same.trans same', Location.lt_trans less' less⟩

theorem trichotomy (a b : Selection) : a.Trails b ∨ a = b ∨ b.Trails a := by
  rcases Location.lt_or_eq_or_gt a.start b.start with less | same | more
  · exact .inl (.inl less)
  · rcases Location.lt_or_eq_or_gt a.stop b.stop with less | same' | more
    · exact .inr (.inr (.inr ⟨same.symm, less⟩))
    · refine .inr (.inl ?_)
      calc a = ⟨a.start, a.stop⟩ := rfl
        _ = b := by rw [same, same']
    · exact .inl (.inr ⟨same, more⟩)
  · exact .inr (.inr (.inl more))

end Selection.Trails

namespace Report

/-- Reports of the same gravity on the same range, of which neither explains a failure better. -/
def Alike (a b : Report) : Prop := a.severity = b.severity ∧ a.selection = b.selection

/-- The other report is graver, or as grave and on a range that starts later or ends earlier. -/
def Below (a b : Report) : Prop :=
  a.severity.code < b.severity.code ∨ a.severity = b.severity ∧ a.selection.Trails b.selection

variable {a b c s : Report} {reports others : List Report}

theorem Alike.refl (a : Report) : a.Alike a := ⟨rfl, rfl⟩

theorem Alike.symm (alike : a.Alike b) : b.Alike a := ⟨alike.1.symm, alike.2.symm⟩

theorem Alike.trans (first : a.Alike b) (second : b.Alike c) : a.Alike c :=
  ⟨first.1.trans second.1, first.2.trans second.2⟩

/-- Reports are warnings or errors, and the order of gravity tells these apart. -/
theorem severity_eq_of_code (same : a.severity.code = b.severity.code) :
    a.severity = b.severity := by
  have known (r : Report) : r.severity = .warning ∨ r.severity = .error := by
    simp only [severity, ReportKind.severity]
    split <;> simp
  rcases known a with left | left <;> rcases known b with right | right <;>
    simp_all [Severity.code]

namespace Below

theorem apart (below : a.Below b) : ¬a.Alike b := by
  rintro ⟨same, place⟩
  rcases below with less | ⟨-, trails⟩
  · rw [same] at less
    omega
  · rw [place] at trails
    exact Selection.Trails.irrefl _ trails

theorem trans (first : a.Below b) (second : b.Below c) : a.Below c := by
  rcases first with less | ⟨same, trails⟩ <;> rcases second with less' | ⟨same', trails'⟩
  · exact .inl (Int.lt_trans less less')
  · exact .inl (same' ▸ less)
  · exact .inl (same ▸ less')
  · exact .inr ⟨same.trans same', trails.trans trails'⟩

theorem of_alike (alike : a.Alike b) (below : b.Below c) : a.Below c := by
  obtain ⟨same, place⟩ := alike
  rwa [Below, same, place]

end Below

theorem prefer_second (grave : a.severity = b.severity) (trails : a.selection.Trails b.selection) :
    prefer a b = .second := by
  simp only [prefer, grave, ne_eq, not_true_eq_false, if_false, trails.ne]
  rcases trails with (less : a.location < b.location) | ⟨(same : a.location = b.location), less⟩
  · have starts : a.location ≠ b.location := fun same => Location.lt_irrefl _ (same ▸ less)
    rw [if_neg starts, if_neg (Location.lt_asymm less)]
  · rw [if_pos same, if_neg (Location.lt_asymm less)]

theorem prefer_first (grave : a.severity = b.severity) (trails : b.selection.Trails a.selection) :
    prefer a b = .first := by
  simp only [prefer, grave, ne_eq, not_true_eq_false, if_false, trails.ne.symm]
  rcases trails with (less : b.location < a.location) | ⟨(same : b.location = a.location), less⟩
  · have starts : a.location ≠ b.location := fun same => Location.lt_irrefl _ (same ▸ less)
    rw [if_neg starts, if_pos less]
  · rw [if_pos same.symm, if_pos less]

/-- Of two reports the better one is chosen, and none is lost if neither is. -/
theorem mostRelevant_cases (a b : Report) :
    a.Below b ∧ a.mostRelevant b = b ∨ b.Below a ∧ a.mostRelevant b = a ∨
      a.Alike b ∧ a.mostRelevant b = a.merge b := by
  by_cases grave : a.severity = b.severity
  · rcases Selection.Trails.trichotomy a.selection b.selection with trails | same | trails
    · refine .inl ⟨.inr ⟨grave, trails⟩, ?_⟩
      rw [mostRelevant, prefer_second grave trails]
    · refine .inr (.inr ⟨⟨grave, same⟩, ?_⟩)
      simp [mostRelevant, prefer, grave, same]
    · refine .inr (.inl ⟨.inr ⟨grave.symm, trails⟩, ?_⟩)
      rw [mostRelevant, prefer_first grave trails]
  · rcases Int.lt_trichotomy a.severity.code b.severity.code with less | same | more
    · refine .inl ⟨.inl less, ?_⟩
      simp [mostRelevant, prefer, grave, Int.not_lt.mpr (Int.le_of_lt less)]
    · exact absurd (severity_eq_of_code same) grave
    · refine .inr (.inl ⟨.inl more, ?_⟩)
      simp [mostRelevant, prefer, grave, more]

/-- The report stands for the best of these: none of them is better, those that are not worse are
alike, and it expects what any of them does. -/
structure Best (reports : List Report) (r : Report) : Prop where
  below : ∀ s ∈ reports, s.Below r ∨ s.Alike r
  among : ∃ s ∈ reports, s.Alike r
  expected : ∀ kind, kind ∈ r.expected ↔ ∃ s ∈ reports, s.Alike r ∧ kind ∈ s.expected

theorem best_singleton (r : Report) : Best [r] r where
  below := by simp [Alike]
  among := ⟨r, by simp, .refl r⟩
  expected kind := by simp [Alike]

/-- One more report is taken into account. -/
theorem Best.snoc (best : Best reports a) (b : Report) :
    Best (reports ++ [b]) (a.mostRelevant b) := by
  have also {p : Report → Prop} : (∃ s ∈ reports ++ [b], p s) ↔ (∃ s ∈ reports, p s) ∨ p b := by
    simp [or_and_right, exists_or]
  have every {p : Report → Prop} : (∀ s ∈ reports ++ [b], p s) ↔ (∀ s ∈ reports, p s) ∧ p b := by
    simp [or_imp, forall_and]
  rcases mostRelevant_cases a b with ⟨below, same⟩ | ⟨below, same⟩ | ⟨alike, same⟩ <;> rw [same]
  · have worse (s : Report) (member : s ∈ reports) : s.Below b :=
      (best.below s member).elim (·.trans below) (Below.of_alike · below)
    refine ⟨every.mpr ⟨fun s member => .inl (worse s member), .inr (.refl b)⟩,
      also.mpr (.inr (.refl b)), fun kind => ?_⟩
    rw [also]
    constructor
    · exact fun member => .inr ⟨.refl b, member⟩
    · rintro (⟨s, member, alike, -⟩ | ⟨-, member⟩)
      · exact absurd alike (worse s member).apart
      · exact member
  · refine ⟨every.mpr ⟨best.below, .inl below⟩, also.mpr (.inl best.among), fun kind => ?_⟩
    rw [also, best.expected, or_iff_left fun both => below.apart both.1]
  · -- the merged report has the kind and the range of the first
    refine ⟨every.mpr ⟨best.below, .inr alike.symm⟩, also.mpr (.inl best.among), fun kind => ?_⟩
    have both : b.Alike (a.merge b) := alike.symm
    rw [also, and_iff_right both]
    exact List.mem_append.trans (or_congr_left (best.expected kind))

/-- Choosing from the left finds the best of the reports. -/
theorem Best.foldl (best : Best reports a) (rest : List Report) :
    Best (reports ++ rest) (rest.foldl mostRelevant a) := by
  induction rest generalizing reports a with
  | nil => simpa using best
  | cons b rest ih => simpa using ih (best.snoc b)

theorem Best.gravest (best : Best reports a) :
    ∀ s ∈ reports, s.severity.code ≤ a.severity.code := by
  intro s member
  rcases best.below s member with (less | ⟨same, -⟩) | ⟨same, -⟩
  · exact Int.le_of_lt less
  · exact Int.le_of_eq (congrArg Severity.code same)
  · exact Int.le_of_eq (congrArg Severity.code same)

theorem Best.latest (best : Best reports a) :
    ∀ s ∈ reports, s.severity = a.severity →
      s.selection.start < a.selection.start ∨
        s.selection.start = a.selection.start ∧ a.selection.stop ≤ s.selection.stop := by
  intro s member grave
  rcases best.below s member with (less | ⟨-, less | ⟨same, less⟩⟩) | ⟨-, same⟩
  · rw [grave] at less
    omega
  · exact .inl less
  · exact .inr ⟨same, Location.le_of_lt less⟩
  · rw [same]
    exact .inr ⟨rfl, Location.le_refl _⟩

/-- The best of more reports is no worse. -/
theorem Best.below_or_alike (best : Best reports a) (best' : Best others b)
    (within : ∀ r ∈ reports, r ∈ others) : a.Below b ∨ a.Alike b := by
  obtain ⟨s, member, here⟩ := best.among
  rcases best'.below s (within s member) with below | alike
  · exact .inl (.of_alike here.symm below)
  · exact .inr (here.symm.trans alike)

/-- The reports themselves decide which is the best of them, not their order. -/
theorem Best.unique (best : Best reports a) (best' : Best others b)
    (same : ∀ r, r ∈ reports ↔ r ∈ others) :
    a.Alike b ∧ ∀ kind, kind ∈ a.expected ↔ kind ∈ b.expected := by
  have alike : a.Alike b := by
    rcases best.below_or_alike best' fun r => (same r).mp with below | alike
    · rcases best'.below_or_alike best fun r => (same r).mpr with above | alike
      · exact absurd (.refl a) (below.trans above).apart
      · exact absurd alike.symm below.apart
    · exact alike
  refine ⟨alike, fun kind => ?_⟩
  rw [best.expected, best'.expected]
  refine exists_congr fun s => and_congr (same s) (and_congr_left fun _ => ?_)
  exact ⟨(·.trans alike), (·.trans alike.symm)⟩

end Report

open Report

/-- Choosing between two reports at a time, from the left, comes to the highest severity of all, of
the ranges of this severity to the one that starts last and then ends first, and to what the
reports of this severity on this range expected. Another order of the reports changes nothing. -/
theorem foldl_mostRelevant_perm (first : Report) (rest : List Report) :
    let reports := first :: rest
    let best := rest.foldl mostRelevant first
    ((∃ s ∈ reports, s.severity = best.severity) ∧
        ∀ s ∈ reports, s.severity.code ≤ best.severity.code) ∧
      ((∃ s ∈ reports, s.severity = best.severity ∧ s.selection = best.selection) ∧
        ∀ s ∈ reports, s.severity = best.severity →
          s.selection.start < best.selection.start ∨
            s.selection.start = best.selection.start ∧
              best.selection.stop ≤ s.selection.stop) ∧
      (∀ kind, kind ∈ best.expected ↔ ∃ s ∈ reports,
        s.severity = best.severity ∧ s.selection = best.selection ∧ kind ∈ s.expected) ∧
      ∀ first' rest', (first' :: rest').Perm reports →
        (rest'.foldl mostRelevant first').severity = best.severity ∧
          (rest'.foldl mostRelevant first').selection = best.selection ∧
          ∀ kind, kind ∈ (rest'.foldl mostRelevant first').expected ↔ kind ∈ best.expected := by
  intro reports best
  have found : Best reports best := (best_singleton first).foldl rest
  obtain ⟨s, member, alike⟩ := found.among
  refine ⟨⟨⟨s, member, alike.1⟩, found.gravest⟩, ⟨⟨s, member, alike⟩, found.latest⟩, ?_, ?_⟩
  · simpa only [Alike, and_assoc] using found.expected
  · intro first' rest' perm
    have found' : Best (first' :: rest') (rest'.foldl mostRelevant first') :=
      (best_singleton first').foldl rest'
    obtain ⟨⟨grave, place⟩, expected⟩ := found'.unique found fun _ => perm.mem_iff
    exact ⟨grave, place, expected⟩

def Report.refused (start stop : Int) (expected : List TokenKind) : Report :=
  { kind := .unexpectedToken, selection := ⟨⟨1, start⟩, ⟨1, stop⟩⟩, expected }

/-- Two of the reports are merged. The others start earlier, end later or are a warning. -/
theorem foldl_mostRelevant_perm_refused :
    let warning : Report := { kind := .unreachableCode, selection := ⟨⟨9, 1⟩, ⟨9, 1⟩⟩ }
    let rest := [refused 5 9 [.dot], refused 5 6 [.comma], refused 3 4 [.plus],
      refused 5 6 [.number]]
    let rest' := [refused 3 4 [.plus], warning, refused 5 6 [.comma], refused 5 9 [.dot]]
    (refused 5 6 [.number] :: rest').Perm (warning :: rest) ∧
      rest.foldl mostRelevant warning = refused 5 6 [.comma, .number] ∧
      (rest'.foldl mostRelevant (refused 5 6 [.number])).selection = ⟨⟨1, 5⟩, ⟨1, 6⟩⟩ ∧
      ∀ kind, kind ∈ (rest'.foldl mostRelevant (refused 5 6 [.number])).expected ↔
        kind ∈ [.comma, .number] := by
  intro warning rest rest'
  have perm : (refused 5 6 [.number] :: rest').Perm (warning :: rest) := by decide
  have best : rest.foldl mostRelevant warning = refused 5 6 [.comma, .number] := by decide
  have same := (foldl_mostRelevant_perm warning rest).2.2.2 _ _ perm
  rw [best] at same
  exact ⟨perm, best, same.2⟩

end Statecraft
