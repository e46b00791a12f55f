import Mathlib.Data.List.Forall2
import Mainboard.GrantScopes
import Mainboard.Runs

/-! The owner's grants file: the operations on the record, the document it is written as, and the
validation every reader repeats. Along every sequence of operations the written file reads back and a
revoke ends every grant of its act and scope, exactly when each revoke finds those grants begun before
it: one revoked at its own beginning is written with an empty window, which the reader refuses. -/

namespace Mainboard.Policy

/-- A finite number exactly, or what a float holds beside the numbers. -/
inductive Amount
  | finite (value : Rat)
  | infinite
  | nan
  deriving DecidableEq

/-- A grant that ends after it begins, as its validator has it; `model_copy` checks nothing. -/
def Grant.Bounded (grant : Grant) : Prop := grant.granted < grant.until

instance (grant : Grant) : Decidable grant.Bounded := inferInstanceAs (Decidable (grant.granted < grant.until))

/-- The owner's declaration of the limit of the card paying a provider. -/
structure Card where
  provider : Target
  usd : Rat
  declared : Int
  usd_pos : 0 < usd
  deriving DecidableEq

/-- The owner's no to one ask. -/
structure Declined where
  ask : String
  moment : Int
  deriving DecidableEq, Repr

/-- Every grant, no and card limit the owner wrote for a workspace, old ones kept as record. -/
structure Grants where
  cards : List Card := []
  declined : List Declined := []
  grants : List Grant := []
  deriving DecidableEq

namespace Grants

def added (grants : Grants) (grant : Grant) : Grants := { grants with grants := grants.grants ++ [grant] }

def declaring (grants : Grants) (card : Card) : Grants := { grants with cards := grants.cards ++ [card] }

def declining (grants : Grants) (refusal : Declined) : Grants :=
  { grants with declined := grants.declined ++ [refusal] }

/-- One grant once every grant of exactly `act` and `scope` in force at a moment ends then. -/
def ended (act : Act) (scope : Text) (moment : Int) (grant : Grant) : Grant :=
  if grant.act = act ∧ grant.scope.text = scope ∧ grant.inForce moment then
    { grant with «until» := moment } else grant

def revoked (grants : Grants) (act : Act) (scope : Text) (moment : Int) : Grants :=
  { grants with grants := grants.grants.map (ended act scope moment) }

/-- The first grant letting `act` on `target` happen, `none` when none does. -/
def covering (grants : Grants) (act : Act) (target : Text) (moment : Int) : Option Grant :=
  grants.grants.find? fun grant => grant.covers act target moment

end Grants

/-- A grant as the file spells it. -/
structure GrantRow where
  act : String
  scope : Text
  granted : Int
  «until» : Int
  ask : String
  deriving DecidableEq, Repr

/-- A card declaration as the file spells it. -/
structure CardRow where
  provider : Text
  usd : Amount
  declared : Int
  deriving DecidableEq

/-- The content of a grants file. -/
structure Document where
  cards : List CardRow
  declined : List Declined
  grants : List GrantRow
  deriving DecidableEq

def Grant.written (grant : Grant) : GrantRow :=
  ⟨grant.act.value, grant.scope.text, grant.granted, grant.until, grant.ask⟩

def Card.written (card : Card) : CardRow := ⟨card.provider.text, .finite card.usd, card.declared⟩

def Grants.written (grants : Grants) : Document :=
  ⟨grants.cards.map Card.written, grants.declined, grants.grants.map Grant.written⟩

/-- A grant read back: its act, its scope, and that it ends after it begins. -/
def GrantRow.read (row : GrantRow) : Except Fault Grant :=
  match Act.ofValue row.act with
  | none => .error .noAct
  | some act =>
    match hscope : Policy.scope row.scope with
    | .error fault => .error fault
    | .ok text =>
      if htext : text = row.scope then
        if row.until ≤ row.granted then .error (.ended row.until)
        else .ok ⟨act, ⟨row.scope, htext ▸ hscope⟩, row.granted, row.until, row.ask⟩
      else .error (.noScope row.scope)

/-- A card declaration read back: its provider, and a finite limit above zero. -/
def CardRow.read (row : CardRow) : Except Fault Card :=
  match htarget : target row.provider with
  | .error fault => .error fault
  | .ok text =>
    if htext : text = row.provider then
      match row.usd with
      | .finite usd =>
        if hpos : 0 < usd then .ok ⟨⟨row.provider, htext ▸ htarget⟩, usd, row.declared, hpos⟩
        else .error .notPositive
      | _ => .error .notFinite
    else .error (.noTarget row.provider)

/-- The grants a document holds, refused for the first record that fails its validation. -/
def Document.grantsRead (document : Document) : Except Fault Grants := do
  let cards ← document.cards.mapM CardRow.read
  let grants ← document.grants.mapM GrantRow.read
  return ⟨cards, document.declined, grants⟩

/-- The grants file of a workspace, `none` while it does not exist. -/
abbrev GrantsFile := Option Document

/-- What the owner types; a grant added is one its validator let through. -/
inductive Change
  | added (grant : Grant) (bounded : grant.Bounded)
  | declining (refusal : Declined)
  | declaring (card : Card)
  | revoked (act : Act) (scope : Text) (moment : Int)

def Change.apply : Change → Grants → Grants
  | added grant _, grants => grants.added grant
  | declining refusal, grants => grants.declining refusal
  | declaring card, grants => grants.declaring card
  | revoked act scope moment, grants => grants.revoked act scope moment

namespace GrantsFile

def read : GrantsFile → Except Fault Grants
  | none => .ok {}
  | some document => document.grantsRead

/-- What a reader of a file that holds no grants is told. -/
def corrupt (shown : Text → String) (stamp : Int → String) (path : String) (fault : Fault) : String :=
  path ++ " is no grants file (" ++ fault.text shown stamp ++ "); move it aside, then grant again"

/-- The changed grants and the file written with them, refused while the file cannot be read. -/
def changed (file : GrantsFile) (change : Change) : Except Fault (Grants × GrantsFile) := do
  let grants ← file.read
  return (change.apply grants, some (change.apply grants).written)

/-- The file once the owner made a change; a refused one leaves it. -/
def step (file : GrantsFile) (change : Change) : GrantsFile :=
  match file.changed change with
  | .ok (_, written) => written
  | .error _ => file

end GrantsFile

theorem Grant.read_written (grant : Grant) :
    grant.written.read = if grant.Bounded then .ok grant else .error (.ended grant.until) := by
  obtain ⟨act, ⟨text, htext⟩, granted, moment, ask⟩ := grant
  unfold GrantRow.read written
  simp only [Act.ofValue_value]
  split
  · rename_i fault hfault
    rw [htext] at hfault
    cases hfault
  · rename_i read hread
    rw [htext] at hread
    cases hread
    simp only [↓reduceDIte]
    by_cases hbounded : Grant.Bounded ⟨act, ⟨text, htext⟩, granted, moment, ask⟩
    · rw [if_pos hbounded, if_neg (Int.not_le.mpr hbounded)]
    · rw [if_neg hbounded, if_pos (Int.not_lt.mp hbounded)]

theorem Card.read_written (card : Card) : card.written.read = .ok card := by
  obtain ⟨⟨text, htext⟩, usd, declared, hpos⟩ := card
  unfold CardRow.read written
  split
  · rename_i fault hfault
    rw [htext] at hfault
    cases hfault
  · rename_i read hread
    rw [htext] at hread
    cases hread
    simp only [↓reduceDIte, dif_pos hpos]

theorem mapM_read_grants (grants : List Grant) :
    (grants.map Grant.written).mapM GrantRow.read = .ok grants ↔ ∀ grant ∈ grants, grant.Bounded := by
  induction grants with
  | nil => simp [pure, Except.pure]
  | cons grant rest ih =>
      simp only [List.map_cons, List.mapM_cons, Grant.read_written, List.forall_mem_cons]
      by_cases hbounded : grant.Bounded
      · rw [if_pos hbounded]
        cases hrest : (rest.map Grant.written).mapM GrantRow.read with
        | error fault =>
            rw [hrest] at ih
            simp only [bind, Except.bind, reduceCtorEq, false_iff, hbounded, true_and] at ih ⊢
            exact ih
        | ok read =>
            rw [hrest] at ih
            simp only [bind, Except.bind, pure, Except.pure, Except.ok.injEq, List.cons.injEq, true_and,
              hbounded] at ih ⊢
            exact ih
      · rw [if_neg hbounded]
        simp [bind, Except.bind, hbounded]

theorem mapM_read_cards (cards : List Card) : (cards.map Card.written).mapM CardRow.read = .ok cards := by
  induction cards with
  | nil => rfl
  | cons card rest ih =>
      simp only [List.map_cons, List.mapM_cons, Card.read_written, ih]
      rfl

/-- The written file reads back to the grants exactly when every grant ends after it begins. -/
theorem grantsRead_written (grants : Grants) :
    grants.written.grantsRead = .ok grants ↔ ∀ grant ∈ grants.grants, grant.Bounded := by
  rw [← mapM_read_grants]
  unfold Document.grantsRead Grants.written
  simp only [mapM_read_cards]
  cases hread : (grants.grants.map Grant.written).mapM GrantRow.read with
  | error fault => simp [bind, Except.bind]
  | ok read =>
      obtain ⟨cards, declined, kept⟩ := grants
      simp [bind, Except.bind, pure, Except.pure]

/-- Whatever a reader accepts holds only grants that end after they begin. -/
theorem bounded_of_mapM {rows : List GrantRow} {grants : List Grant}
    (h : rows.mapM GrantRow.read = .ok grants) : ∀ grant ∈ grants, grant.Bounded := by
  induction rows generalizing grants with
  | nil =>
      simp only [List.mapM_nil, pure, Except.pure, Except.ok.injEq] at h
      simp [← h]
  | cons row rows ih =>
      rw [List.mapM_cons] at h
      cases hrow : row.read with
      | error fault => simp [hrow, bind, Except.bind] at h
      | ok grant =>
          cases hrows : rows.mapM GrantRow.read with
          | error fault => simp [hrow, hrows, bind, Except.bind] at h
          | ok rest =>
              simp only [hrow, hrows, bind, Except.bind, pure, Except.pure, Except.ok.injEq] at h
              subst h
              refine List.forall_mem_cons.mpr ⟨?_, ih hrows⟩
              unfold GrantRow.read at hrow
              split at hrow
              · cases hrow
              · split at hrow
                · cases hrow
                · split at hrow
                  · split at hrow
                    · cases hrow
                    · rename_i hlate
                      cases hrow
                      exact Int.not_le.mp hlate
                  · cases hrow

theorem bounded_of_read {file : GrantsFile} {grants : Grants} (h : file.read = .ok grants) :
    ∀ grant ∈ grants.grants, grant.Bounded := by
  cases file with
  | none =>
      cases h
      simp
  | some document =>
      unfold GrantsFile.read Document.grantsRead at h
      cases hcards : document.cards.mapM CardRow.read with
      | error fault => simp [hcards, bind, Except.bind] at h
      | ok cards =>
          cases hrows : document.grants.mapM GrantRow.read with
          | error fault => simp [hcards, hrows, bind, Except.bind] at h
          | ok read =>
              simp only [hcards, hrows, bind, Except.bind, pure, Except.pure, Except.ok.injEq] at h
              subst h
              exact bounded_of_mapM hrows

/-- A grant in a revoked list is a grant of the list, ended or not. -/
theorem mem_revoked {grants : Grants} {act : Act} {scope : Text} {moment : Int} {grant : Grant} :
    grant ∈ (grants.revoked act scope moment).grants ↔
      ∃ was ∈ grants.grants, Grants.ended act scope moment was = grant := by
  simp [Grants.revoked]

/-- Every record but the grants a revoke ends is as it was, and those differ in their end alone. -/
def Spared (before after : Grants) (act : Act) (scope : Text) (moment : Int) : Prop :=
  after.cards = before.cards ∧ after.declined = before.declined ∧
    List.Forall₂ (fun was now => now = was ∨
      (was.act = act ∧ was.scope.text = scope ∧ was.inForce moment ∧ now = { was with «until» := moment }))
      before.grants after.grants

theorem spared_revoked (grants : Grants) (act : Act) (scope : Text) (moment : Int) :
    Spared grants (grants.revoked act scope moment) act scope moment := by
  refine ⟨rfl, rfl, List.forall₂_map_right_iff.mpr (List.forall₂_same.mpr fun was _ => ?_)⟩
  unfold Grants.ended
  split
  · rename_i hmatch
    exact .inr ⟨hmatch.1, hmatch.2.1, hmatch.2.2, rfl⟩
  · exact .inl rfl

/-- No grant of an act and scope is in force at any time from a moment on. -/
def Over (grants : Grants) (act : Act) (scope : Text) (moment : Int) : Prop :=
  ∀ grant ∈ grants.grants, grant.act = act → grant.scope.text = scope →
    ∀ later, moment ≤ later → ¬ grant.inForce later

/-- What a change owes the record beyond its own entry: a revoke ends what it names, nothing else. -/
def Change.Settles (change : Change) (before after : Grants) : Prop :=
  match change with
  | .revoked act scope moment => Over after act scope moment ∧ Spared before after act scope moment
  | _ => True

/-- Every grant a revoke names began before it. -/
def Change.Dated (change : Change) (before : Grants) : Prop :=
  match change with
  | .revoked act scope moment => ∀ grant ∈ before.grants,
      grant.act = act → grant.scope.text = scope → grant.granted < moment
  | _ => True

/-- A revoke ends every grant it names exactly when each of them began before it or ended by then. -/
theorem over_revoked_iff {grants : Grants} {act : Act} {scope : Text} {moment : Int}
    (hbounded : ∀ grant ∈ grants.grants, grant.Bounded) :
    Over (grants.revoked act scope moment) act scope moment ↔
      ∀ grant ∈ grants.grants, grant.act = act → grant.scope.text = scope → grant.granted ≤ moment := by
  constructor
  · intro hover grant hgrant hact hscope
    by_contra hlater
    have hkept : Grants.ended act scope moment grant = grant := by
      refine if_neg fun hmatch => ?_
      exact hlater (Grant.inForce_iff.mp hmatch.2.2).1
    exact hover grant (mem_revoked.mpr ⟨grant, hgrant, hkept⟩) hact hscope grant.granted
      (by omega) (Grant.inForce_iff.mpr ⟨Int.le_refl _, hbounded grant hgrant⟩)
  · intro hbefore grant hgrant hact hscope later hlater hforce
    obtain ⟨was, hwas, rfl⟩ := mem_revoked.mp hgrant
    unfold Grants.ended at hact hscope hforce
    split at hforce
    · exact absurd (Grant.inForce_iff.mp hforce).2 (Int.not_lt.mpr hlater)
    · rename_i hno
      rw [if_neg hno] at hact hscope
      have hstill : moment < was.until := Int.lt_of_le_of_lt hlater (Grant.inForce_iff.mp hforce).2
      exact hno ⟨hact, hscope, Grant.inForce_iff.mpr ⟨hbefore was hwas hact hscope, hstill⟩⟩

/-- A revoke leaves only grants that end after they begin exactly when none of those it names begins
at its moment. -/
theorem bounded_revoked_iff {grants : Grants} {act : Act} {scope : Text} {moment : Int}
    (hbounded : ∀ grant ∈ grants.grants, grant.Bounded) :
    (∀ grant ∈ (grants.revoked act scope moment).grants, grant.Bounded) ↔
      ∀ grant ∈ grants.grants, grant.act = act → grant.scope.text = scope → grant.granted ≠ moment := by
  constructor
  · intro hafter grant hgrant hact hscope hsame
    have hforce : grant.inForce moment := by
      have hends := hbounded grant hgrant
      rw [Grant.Bounded, hsame] at hends
      exact Grant.inForce_iff.mpr ⟨Int.le_of_eq hsame, hends⟩
    have hended : Grants.ended act scope moment grant = { grant with «until» := moment } :=
      if_pos ⟨hact, hscope, hforce⟩
    have := hafter _ (mem_revoked.mpr ⟨grant, hgrant, hended⟩)
    exact absurd this (by simp [Grant.Bounded, hsame])
  · intro hdiffer grant hgrant
    obtain ⟨was, hwas, rfl⟩ := mem_revoked.mp hgrant
    unfold Grants.ended
    split
    · rename_i hmatch
      have hbegun := (Grant.inForce_iff.mp hmatch.2.2).1
      exact Int.lt_iff_le_and_ne.mpr ⟨hbegun, hdiffer was hwas hmatch.1 hmatch.2.1⟩
    · exact hbounded was hwas

/-- Once its grants all began before it, no grant a revoke names covers anything from then on. -/
theorem covering_revoked {grants : Grants} {act : Act} {scope : Text} {target : Text} {moment later : Int}
    {grant : Grant} (hbounded : ∀ grant ∈ grants.grants, grant.Bounded)
    (hdated : (Change.revoked act scope moment).Dated grants) (hlater : moment ≤ later)
    (hcovering : (grants.revoked act scope moment).covering act target later = some grant) :
    grant.scope.text ≠ scope := by
  intro hscope
  unfold Grants.covering at hcovering
  have hmem : grant ∈ (grants.revoked act scope moment).grants := List.mem_of_find?_eq_some hcovering
  have hcovers : grant.covers act target later := by simpa using List.find?_some hcovering
  obtain ⟨hact, -, -, hforce⟩ := Grant.covers_iff.mp hcovers
  have hbefore : ∀ grant ∈ grants.grants, grant.act = act → grant.scope.text = scope →
      grant.granted ≤ moment :=
    fun other hother hsame hnamed => Int.le_of_lt (hdated other hother hsame hnamed)
  exact (over_revoked_iff hbounded).mpr hbefore grant hmem hact.symm hscope later hlater
    (Grant.inForce_iff.mpr hforce)

/-- What one change of the file owes: the file reads back to the changed grants, and a revoke ends
what it names and spares the rest. -/
def Lawful (file : GrantsFile) (change : Change) : Prop :=
  ∃ before, file.read = .ok before ∧
    (file.step change).read = .ok (change.apply before) ∧
    change.Settles before (change.apply before)

/-- The revoke finds every grant it names begun before it. -/
def Begun (file : GrantsFile) (change : Change) : Prop :=
  ∃ before, file.read = .ok before ∧ change.Dated before

theorem bounded_apply_iff {grants : Grants} {change : Change}
    (hbounded : ∀ grant ∈ grants.grants, grant.Bounded) :
    ((∀ grant ∈ (change.apply grants).grants, grant.Bounded) ∧
      change.Settles grants (change.apply grants)) ↔ change.Dated grants := by
  cases change with
  | added grant hnew =>
      refine iff_of_true ⟨fun other hother => ?_, trivial⟩ trivial
      rcases List.mem_append.mp hother with hold | hlast
      · exact hbounded other hold
      · rw [List.mem_singleton.mp hlast]
        exact hnew
  | declining refusal => exact iff_of_true ⟨hbounded, trivial⟩ trivial
  | declaring card => exact iff_of_true ⟨hbounded, trivial⟩ trivial
  | revoked act scope moment =>
      change (_ ∧ Over _ _ _ _ ∧ Spared _ _ _ _ _) ↔ ∀ grant ∈ grants.grants, _
      simp only [Change.apply, bounded_revoked_iff hbounded, over_revoked_iff hbounded,
        spared_revoked, and_true]
      constructor
      · rintro ⟨hdiffer, hbefore⟩ grant hgrant hact hscope
        exact Int.lt_iff_le_and_ne.mpr
          ⟨hbefore grant hgrant hact hscope, hdiffer grant hgrant hact hscope⟩
      · intro hdated
        exact ⟨fun grant hgrant hact hscope => Int.ne_of_lt (hdated grant hgrant hact hscope),
          fun grant hgrant hact hscope => Int.le_of_lt (hdated grant hgrant hact hscope)⟩

/-- One change of a file that can be read is lawful exactly when its revoke is dated after what it
names. -/
theorem lawful_iff_begun {file : GrantsFile} {grants : Grants} (hread : file.read = .ok grants)
    (change : Change) : Lawful file change ↔ Begun file change := by
  have hstep : file.step change = some (change.apply grants).written := by
    simp [GrantsFile.step, GrantsFile.changed, hread, bind, Except.bind, pure, Except.pure]
  have hiff := @bounded_apply_iff grants change (bounded_of_read hread)
  rw [← grantsRead_written] at hiff
  constructor
  · rintro ⟨before, hbefore, hback, hsettles⟩
    rw [hread, Except.ok.injEq] at hbefore
    subst hbefore
    rw [hstep] at hback
    exact ⟨grants, hread, hiff.mp ⟨hback, hsettles⟩⟩
  · rintro ⟨before, hbefore, hdated⟩
    rw [hread, Except.ok.injEq] at hbefore
    subst hbefore
    obtain ⟨hback, hsettles⟩ := hiff.mpr hdated
    exact ⟨grants, hread, by rw [hstep]; exact hback, hsettles⟩

/-- Along every sequence of changes of a file that can be read. -/
theorem each_lawful_iff {file : GrantsFile} (hread : ∃ grants, file.read = .ok grants)
    (changes : List Change) :
    Runs.Each GrantsFile.step Lawful file changes ↔ Runs.Each GrantsFile.step Begun file changes := by
  induction changes generalizing file with
  | nil => exact Iff.rfl
  | cons change changes ih =>
      obtain ⟨grants, hgrants⟩ := hread
      rw [Runs.each_cons, Runs.each_cons, ← lawful_iff_begun hgrants]
      refine and_congr_right fun hlawful => ih ?_
      obtain ⟨before, -, hback, -⟩ := hlawful
      exact ⟨_, hback⟩

/-- A grant covers only its very act, on a target that is its scope or strictly below it, in its
window. -/
def CoversWithin : Prop := ∀ (grant : Grant) (act : Act) (target : Text) (moment : Int),
  grant.covers act target moment →
    act = grant.act ∧ named target ∧ (target = grant.scope.text ∨ Below grant.scope.text target) ∧
      grant.granted ≤ moment ∧ moment < grant.until

/-- The laws of the grants file along a sequence of changes, from no file at all. -/
def GrantLaws (changes : List Change) : Prop :=
  Runs.Each GrantsFile.step Lawful none changes ∧ CoversWithin

theorem grantLaws_iff (changes : List Change) :
    GrantLaws changes ↔ Runs.Each GrantsFile.step Begun none changes := by
  unfold GrantLaws
  rw [each_lawful_iff ⟨{}, rfl⟩, and_iff_left]
  intro grant act target moment hcovers
  exact Grant.covers_iff.mp hcovers

/-- Leave to push below `owner/repo:mb`, from moment 5 up to 9. -/
def pushLeave : Grant := ⟨.push, ⟨"owner/repo:mb/*".toList, by decide⟩, 5, 9, ""⟩

/-- A revoke at the very moment a grant of its act and scope began writes a file nobody can read. -/
theorem grantLaws_fails_at_grant : ¬ ∀ changes : List Change, GrantLaws changes := by
  intro hall
  obtain ⟨-, ⟨before, hread, hback, -⟩, -⟩ :=
    (hall [.added pushLeave (by decide), .revoked .push pushLeave.scope.text 5]).1
  have hadded : (GrantsFile.step none (.added pushLeave (by decide))).read = .ok ⟨[], [], [pushLeave]⟩ :=
    (grantsRead_written ⟨[], [], [pushLeave]⟩).mpr (by decide)
  rw [hadded, Except.ok.injEq] at hread
  subst hread
  have hrevoked : (GrantsFile.step (GrantsFile.step none (.added pushLeave (by decide)))
      (.revoked .push pushLeave.scope.text 5)).read = .error (.ended 5) := by decide +kernel
  rw [hrevoked] at hback
  cases hback

end Mainboard.Policy
