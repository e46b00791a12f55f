import Mainboard.AllocationSteps

/-! Safety of the creation protocol: every step of every party keeps the invariant, unless a submitter takes for a
refusal what is none, so its promises hold in every state of every interleaving in which none does. -/

namespace Mainboard

namespace Provisioning

/-- One step of any party keeps the invariant, where what is taken for a refusal is one. -/
theorem inv_step {lifecycle : Lifecycle} (s : Provisioning) (provision : Provision) (hinv : Inv s)
    (hfounded : s.Founded provision) : Inv (step lifecycle s provision) := by
  cases provision with
  | reserve record =>
      simp only [step]
      split_ifs with henabled
      · obtain ⟨hfresh, hhandle, hverdict⟩ := henabled
        rcases Registry.reserve_cases s.log record with ⟨-, refusal, hreserve⟩ | ⟨hfree, hreserve⟩
        · rw [hreserve]
          exact hinv
        · rw [hreserve]
          exact hinv.reserve hfresh hhandle hverdict hfree
      · exact hinv
  | begin label lease =>
      simp only [step]
      split
      next record hintent hsubmitter =>
          cases hclaim : s.claim lifecycle record .submitting lease with
          | none => exact hinv.rests label (.inr (.inl rfl))
          | some begun => exact hinv.begin hintent hclaim
      next => exact hinv
  | send label =>
      simp only [step]
      split
      next record hintent hsubmitter => exact hinv.send hintent hsubmitter
      next => exact hinv
  | accept label call handle =>
      simp only [step]
      split_ifs with henabled
      · exact hinv.accept henabled.1 henabled.2
      · exact hinv
  | decline label call =>
      simp only [step]
      split_ifs with hcall
      · exact hinv.answer hcall (by decide) (by decide) (fun machine hmem => hmem) fun machine hmem => .inl hmem
      · exact hinv
  | replyRefused label =>
      simp only [step]
      split_ifs with hsent
      · exact hinv.replyRefused hsent (hfounded hsent)
      · exact hinv
  | replyCreated label handle =>
      simp only [step]
      split_ifs with henabled
      · refine hinv.moveTo ?_
        intro record hintent
        simp only [Attends, Provisioning.moveTo, Function.update_self]
        tauto
      · exact hinv
  | refused label =>
      simp only [step]
      split
      next record hintent hsubmitter =>
          split
          next current hnamed =>
              split_ifs with hverdict
              · exact hinv.refused hintent hsubmitter hnamed hverdict
              · exact hinv.rests label (.inl rfl)
          next => exact hinv.rests label (.inr (.inl rfl))
      next => exact hinv
  | reopen label =>
      simp only [step]
      split
      next record current hintent hsubmitter =>
          cases hreopen : s.log.reopen current with
          | error refusal => exact hinv.rests label (.inr (.inl rfl))
          | ok written =>
              refine hinv.reopen hsubmitter ?_ hreopen
              rw [hintent]
              exact Option.some_ne_none _
      next => exact hinv
  | created label =>
      simp only [step]
      split
      next record handle hintent hsubmitter =>
          cases hattach : s.attach record handle with
          | none => exact hinv.rests label (.inr (.inl rfl))
          | some bound => exact hinv.created hintent hsubmitter hattach
      next => exact hinv
  | raise label =>
      simp only [step]
      split_ifs
      · exact hinv.rests label (.inr (.inl rfl))
      · exact hinv
  | interrupted label =>
      simp only [step]
      split
      next record hintent hsubmitter =>
          split
          next current hnamed => exact hinv.interrupted hintent hnamed
          next => exact hinv.rests label (.inr (.inr rfl))
      next => exact hinv
  | close label =>
      simp only [step]
      split
      next record current hintent hsubmitter =>
          have hattends := hinv.attends label record hintent
          simp only [Attends, hsubmitter] at hattends
          exact (hinv.interrupt hattends.2).rests label (.inr (.inr rfl))
      next => exact hinv
  | die label => exact hinv.rests label (.inr (.inr rfl))
  | cancel run =>
      simp only [step]
      cases hclaim : s.claim lifecycle run .cancelled none with
      | none => exact hinv
      | some claimed => exact hinv.claim (.inr (.inr rfl)) hclaim
  | reapNamed label target handle =>
      simp only [step]
      split_ifs with hmachine
      · split
        next run hnamed => exact hinv.reapNamed hmachine hnamed
        next => exact hinv
      · exact hinv
  | reapCreated index =>
      simp only [step]
      split
      next run handle hnamed =>
          cases hattach : s.attach run handle with
          | none => exact hinv
          | some attached => exact hinv.reapCreated (List.mem_of_getElem? hnamed) hattach
      next => exact hinv

/-- In every state of every interleaving of submitters, provider, canceller and reaper in which what a submitter takes
for a refusal is one, the creation protocol keeps its promises. -/
theorem creation_safe (lifecycle : Lifecycle) (s : Provisioning) (hinitial : Initial s) (provisions : List Provision)
    (hfounded : Runs.Each (step lifecycle) Founded s provisions) :
    Runs.Always (step lifecycle) Safe s provisions :=
  Runs.always_mono (fun _ => safe_of_inv) (Runs.invariant_always inv_step (inv_initial hinitial) hfounded)

section Recovery

private def unstarted : Provisioning :=
  ⟨[], fun _ => none, fun _ => .ended, fun _ => [], [], [], fun _ => [], fun _ => [], []⟩

private theorem initial_unstarted : Initial unstarted :=
  ⟨fun _ => rfl, fun _ => rfl, rfl, rfl, fun _ => rfl, fun _ => rfl, rfl,
    fun identity row hrow => by cases (Registry.at?_nil identity).symm.trans hrow⟩

private def asked : RunRecord where
  handle := "mainboard-1"
  target := "vast-1"
  submittedAt := 1
  creation := "mainboard-1"
  verdict := some "prepared"

/-- A create declined, and one for the next offer whose reply is lost, found by the reaper under its label; the cancel
comes too late. -/
private def lostReply : List Provision :=
  [.reserve asked, .begin "mainboard-1" none, .send "mainboard-1", .decline "mainboard-1" 0, .replyRefused "mainboard-1",
    .refused "mainboard-1", .reopen "mainboard-1", .begin "mainboard-1" none, .send "mainboard-1",
    .accept "mainboard-1" 1 "34", .raise "mainboard-1", .cancel asked, .reapNamed "mainboard-1" "vast-1" "34",
    .reapCreated 0]

theorem creation_safe_lostReply :
    Runs.Always (step .table) Safe unstarted lostReply ∧
      (Runs.run (step .table) unstarted lostReply).binds "mainboard-1" = ["34"] :=
  ⟨creation_safe .table unstarted initial_unstarted lostReply
      ⟨trivial, trivial, trivial, trivial, fun _ => by decide, trivial, trivial, trivial, trivial, trivial, trivial, trivial,
        trivial, trivial, trivial⟩,
    by decide⟩

/-- A create the provider answers as out of capacity though it made the machine: the request is opened again and, with
no other offer, ends as failed. -/
private def mistakenRefusal : List Provision :=
  [.reserve asked, .begin "mainboard-1" none, .send "mainboard-1", .accept "mainboard-1" 0 "34",
    .replyRefused "mainboard-1", .refused "mainboard-1", .reopen "mainboard-1", .raise "mainboard-1",
    .interrupted "mainboard-1", .close "mainboard-1"]

/-- The mistaken refusal ends a request as failed with its create outstanding. -/
theorem creation_unsafe : ¬ Runs.Always (step .table) Safe unstarted mistakenRefusal := by
  intro hsafe
  have hrow : ((Runs.run (step .table) unstarted mistakenRefusal).log.at? asked.identity).map
      (fun row => (row.verdict, row.creation)) = some (some Word.failed.value, "mainboard-1") := by decide
  obtain ⟨row, hcurrent, hwords⟩ := Option.map_eq_some_iff.mp hrow
  obtain ⟨hfailed, hcreation⟩ := Prod.mk.inj hwords
  have hclosed := (hsafe mistakenRefusal (List.prefix_refl _)).failedClosed asked.identity row hcurrent hfailed
  rw [hcreation] at hclosed
  exact hclosed ⟨⟨.accepted, by decide, by decide⟩, by decide⟩

end Recovery

end Provisioning

end Mainboard
