import Mainboard.CallOrder
import Mainboard.Runs

/-! A sequence of calls on a tree of files, each given to where the renames before it left its places, and the same
calls with the writes first, then the renames, then the removals. Where no call reaches into what an earlier one moved
away, removed, or put down, both leave the same tree, and everything put down stands there. -/

namespace FileTree

variable {ν α : Type} [DecidableEq ν]

/-- Calls made one after the other leave this standing, and none is refused. -/
def Leads (t : Tree ν α) : List (Call ν α) → Standing ν α → Prop
  | [], e => t.entry = e
  | call :: calls, e => (call.make t).raised = false ∧ Leads (call.make t).tree calls e

section Leading

variable {t u : Tree ν α} {e : Standing ν α} {calls more rest : List (Call ν α)} {first second call : Call ν α}

/-- A call is told from what stands. -/
theorem make_congr (hcall : call.Proper) (h : t.entry = u.entry) (hmade : (call.make t).raised = false) :
    (call.make u).raised = false ∧ (call.make t).tree.entry = (call.make u).tree.entry := by
  have hallowed := (Call.make_iff hcall).mp hmade
  have hu : (call.make u).raised = false := (Call.make_iff hcall).mpr (h ▸ hallowed)
  exact ⟨hu, by rw [Call.make_entry hcall hmade, Call.make_entry hcall hu, h]⟩

theorem Leads.congr (hcalls : ∀ call ∈ calls, call.Proper) (h : t.entry = u.entry) (hleads : Leads t calls e) :
    Leads u calls e := by
  induction calls generalizing t u with
  | nil => exact h.symm.trans hleads
  | cons call calls ih =>
      obtain ⟨hmade, hentry⟩ := make_congr (hcalls call List.mem_cons_self) h hleads.1
      exact ⟨hmade, ih (fun other hother => hcalls other (List.mem_cons_of_mem _ hother)) hentry hleads.2⟩

/-- One more call that what stands allows. -/
theorem Leads.concat (h : Leads t calls e) (hcall : call.Proper) (hallowed : call.Allowed e) :
    Leads t (calls ++ [call]) (call.effect e) := by
  induction calls generalizing t with
  | nil =>
      obtain rfl : t.entry = e := h
      have hmade := (Call.make_iff hcall).mpr hallowed
      exact ⟨hmade, Call.make_entry hcall hmade⟩
  | cons other calls ih => exact ⟨h.1, ih h.2⟩

/-- What follows a list of calls may be replaced by what leads to the same standing. -/
theorem Leads.tail (h : Leads t (calls ++ more) e) (hmore : ∀ u : Tree ν α, Leads u more e → Leads u rest e) :
    Leads t (calls ++ rest) e := by
  induction calls generalizing t with
  | nil => exact hmore t h
  | cons call calls ih => exact ⟨h.1, ih h.2⟩

/-- Two calls change places where what the later one then does is what it did before. -/
theorem Leads.swap {moved : Call ν α} (hproper : ∀ call ∈ first :: second :: moved :: rest, call.Proper)
    (hswap : first.Allowed t.entry → moved.Allowed (first.effect t.entry) →
      second.Allowed t.entry ∧ first.Allowed (second.effect t.entry) ∧
        first.effect (second.effect t.entry) = moved.effect (first.effect t.entry))
    (h : Leads t (first :: moved :: rest) e) : Leads t (second :: first :: rest) e := by
  simp only [List.forall_mem_cons] at hproper
  obtain ⟨hfirst, hsecond, hmoved, hrest⟩ := hproper
  obtain ⟨hmade, hmadeMoved, hleads⟩ := h
  have hentry := Call.make_entry hfirst hmade
  have hentryMoved := Call.make_entry hmoved hmadeMoved
  rw [hentry] at hentryMoved
  obtain ⟨hallowed, hallowedFirst, heffect⟩ := hswap ((Call.make_iff hfirst).mp hmade)
    (hentry ▸ (Call.make_iff hmoved).mp hmadeMoved)
  have hmadeSecond := (Call.make_iff hsecond).mpr hallowed
  have hentrySecond := Call.make_entry hsecond hmadeSecond
  have hmadeFirst := (Call.make_iff hfirst).mpr (hentrySecond ▸ hallowedFirst)
  refine ⟨hmadeSecond, hmadeFirst, hleads.congr hrest ?_⟩
  rw [hentryMoved, Call.make_entry hfirst hmadeFirst, hentrySecond, heffect]

end Leading

/-- Where a place stands after renames. -/
def now (renames : List (List ν × List ν)) (place : List ν) : List ν :=
  renames.foldl (fun place entry => shift entry.1 entry.2 place) place

/-- No rename lands at or above a place, each asked of where the ones before it left the place. -/
def Passes : List (List ν × List ν) → List ν → Prop
  | [], _ => True
  | entry :: renames, place => ¬ entry.2 <+: place ∧ Passes renames (shift entry.1 entry.2 place)

instance decidablePasses : (renames : List (List ν × List ν)) → (place : List ν) → Decidable (Passes renames place)
  | [], _ => .isTrue trivial
  | entry :: renames, place =>
      have : Decidable (Passes renames (shift entry.1 entry.2 place)) := decidablePasses renames _
      inferInstanceAs (Decidable (¬ entry.2 <+: place ∧ Passes renames (shift entry.1 entry.2 place)))

section Pulling

variable {t : Tree ν α} {e : Standing ν α} {rest : List (Call ν α)} {renames : List (List ν × List ν)}
  {removed : List (List ν)} {place old new : List ν} {contents : α}

theorem now_append (renames later : List (List ν × List ν)) (place : List ν) :
    now (renames ++ later) place = now later (now renames place) := List.foldl_append

theorem now_eq_self (h : ∀ entry ∈ renames, ¬ entry.1 <+: place) : now renames place = place := by
  induction renames with
  | nil => rfl
  | cons entry renames ih =>
      have hentry : shift entry.1 entry.2 place = place := shift_of_not (h entry List.mem_cons_self)
      rw [now, List.foldl_cons, hentry]
      exact ih fun other hother => h other (List.mem_cons_of_mem _ hother)

theorem passes_append (renames later : List (List ν × List ν)) (place : List ν) :
    Passes (renames ++ later) place ↔ Passes renames place ∧ Passes later (now renames place) := by
  induction renames generalizing place with
  | nil => exact ⟨fun h => ⟨trivial, h⟩, fun h => h.2⟩
  | cons entry renames ih =>
      rw [List.cons_append, Passes, Passes, ih, and_assoc]
      rfl

/-- Places that no rename lands at or above are kept apart by renames. -/
theorem now_injective {other : List ν} (hplace : Passes renames place) (hother : Passes renames other)
    (h : now renames place = now renames other) : place = other := by
  induction renames generalizing place other with
  | nil => exact h
  | cons entry renames ih =>
      have hshift := ih hplace.2 hother.2 h
      by_cases hfrom : entry.1 <+: place
      · obtain ⟨inner, rfl⟩ := hfrom
        rw [shift_append] at hshift
        by_cases hfrom' : entry.1 <+: other
        · obtain ⟨inner', rfl⟩ := hfrom'
          rw [shift_append] at hshift
          rw [List.append_cancel_left hshift]
        · rw [shift_of_not hfrom'] at hshift
          exact absurd (hshift ▸ List.prefix_append entry.2 inner) hother.1
      · rw [shift_of_not hfrom] at hshift
        by_cases hfrom' : entry.1 <+: other
        · obtain ⟨inner', rfl⟩ := hfrom'
          rw [shift_append] at hshift
          exact absurd (hshift ▸ List.prefix_append entry.2 inner') hplace.1
        · rwa [shift_of_not hfrom'] at hshift

def renameCalls (renames : List (List ν × List ν)) : List (Call ν α) :=
  renames.map fun entry => .rename entry.1 entry.2

def writeCalls (writes : List (List ν × α)) : List (Call ν α) := writes.map fun entry => .write entry.1 entry.2

def removeCalls (removed : List (List ν)) : List (Call ν α) := removed.map .remove

omit [DecidableEq ν] in
theorem proper_renameCalls (h : ∀ entry ∈ renames, entry.1 ≠ entry.2) :
    ∀ call ∈ (renameCalls renames : List (Call ν α)), call.Proper :=
  List.forall_mem_map.mpr h

omit [DecidableEq ν] in
theorem proper_removeCalls : ∀ call ∈ (removeCalls removed : List (Call ν α)), call.Proper :=
  List.forall_mem_map.mpr fun _ _ => trivial

/-- A write after renames is made before them, at the place they carry to where it was made. -/
theorem Leads.write_before_renames (hrenames : ∀ entry ∈ renames, entry.1 ≠ entry.2) (hpass : Passes renames place)
    (hrest : ∀ call ∈ rest, call.Proper)
    (h : Leads t (renameCalls renames ++ .write (now renames place) contents :: rest) e) :
    Leads t (.write place contents :: (renameCalls renames ++ rest)) e := by
  induction renames generalizing t place with
  | nil => exact h
  | cons entry renames ih =>
      have hself := hrenames entry List.mem_cons_self
      have hlater := fun other hother => hrenames other (List.mem_cons_of_mem entry hother)
      have hpulled : Leads t (.rename entry.1 entry.2 :: .write (shift entry.1 entry.2 place) contents ::
          (renameCalls renames ++ rest)) e := ⟨h.1, ih hlater hpass.2 h.2⟩
      show Leads t (.write place contents :: .rename entry.1 entry.2 :: (renameCalls renames ++ rest)) e
      refine hpulled.swap ?_ fun hrename hwrite => Call.write_before_rename t.grounded hrename hpass.1 hwrite
      simp only [List.forall_mem_cons, List.forall_mem_append]
      exact ⟨hself, trivial, trivial, proper_renameCalls hlater, hrest⟩

/-- A write after removals of nothing above it is made before them. -/
theorem Leads.write_before_removes (hapart : ∀ gone ∈ removed, ¬ gone <+: place)
    (h : Leads t (removeCalls removed ++ [.write place contents]) e) :
    Leads t (.write place contents :: removeCalls removed) e := by
  induction removed generalizing t with
  | nil => exact h
  | cons gone removed ih =>
      have hlater := fun other hother => hapart other (List.mem_cons_of_mem gone hother)
      have hpulled : Leads t (.remove gone :: .write place contents :: removeCalls removed) e := ⟨h.1, ih hlater h.2⟩
      refine hpulled.swap ?_ fun hremove hwrite =>
        Call.write_before_remove hremove (hapart gone List.mem_cons_self) hwrite
      simp only [List.forall_mem_cons]
      exact ⟨trivial, trivial, trivial, proper_removeCalls⟩

/-- A rename after removals that neither of its ends meets is made before them. -/
theorem Leads.rename_before_removes (hself : old ≠ new)
    (hapart : ∀ gone ∈ removed, ¬ old <+: gone ∧ ¬ gone <+: new ∧ ¬ new <+: gone)
    (h : Leads t (removeCalls removed ++ [.rename old new]) e) :
    Leads t (.rename old new :: removeCalls removed) e := by
  induction removed generalizing t with
  | nil => exact h
  | cons gone removed ih =>
      have hlater := fun other hother => hapart other (List.mem_cons_of_mem gone hother)
      obtain ⟨hold, hgone, hnew⟩ := hapart gone List.mem_cons_self
      have hpulled : Leads t (.remove gone :: .rename old new :: removeCalls removed) e := ⟨h.1, ih hlater h.2⟩
      refine hpulled.swap ?_ fun hremove hrename => Call.rename_before_remove hremove hold hgone hnew hrename
      simp only [List.forall_mem_cons]
      exact ⟨trivial, hself, hself, proper_removeCalls⟩

end Pulling

/-- A sequence under way: the tree, whether a call was refused, the writes made by their places before any rename, the
renames and the removals made, and where each rename landed. -/
structure Sequence (ν α : Type) where
  tree : Tree ν α
  raised : Bool := false
  writes : List (List ν × α) := []
  renames : List (List ν × List ν) := []
  removed : List (List ν) := []
  landed : List (List ν) := []

namespace Call

def written : Call ν α → Option (List ν × α)
  | write place contents => some (place, contents)
  | _ => none

def renamePair : Call ν α → Option (List ν × List ν)
  | rename old new => some (old, new)
  | _ => none

def removal : Call ν α → Option (List ν)
  | remove place => some place
  | _ => none

end Call

namespace Sequence

/-- One call, given to where its places stand now. A refused call ends the sequence. -/
def step (s : Sequence ν α) (call : Call ν α) : Sequence ν α :=
  if s.raised then s
  else match call with
    | .write place contents =>
        let done := (Call.write (now s.renames place) contents).make s.tree
        { s with tree := done.tree, raised := done.raised, writes := s.writes ++ [(place, contents)] }
    | .rename old new =>
        let entry := (now s.renames old, now s.renames new)
        let done := (Call.rename entry.1 entry.2).make s.tree
        { s with tree := done.tree, raised := done.raised, renames := s.renames ++ [entry],
                 landed := s.landed.map (shift entry.1 entry.2) ++ [entry.2] }
    | .remove place =>
        let done := (Call.remove (now s.renames place)).make s.tree
        { s with tree := done.tree, raised := done.raised, removed := s.removed ++ [now s.renames place] }

/-- The call reaches into nothing an earlier one moved away or removed, and onto nothing an earlier one put down. -/
def Apart (s : Sequence ν α) : Call ν α → Prop
  | .write place _ => Passes s.renames place ∧ ∀ gone ∈ s.removed, ¬ gone <+: now s.renames place
  | .rename old new => old ≠ new ∧ (∀ entry ∈ s.renames, ¬ entry.1 <+: old ∧ ¬ entry.1 <+: new) ∧
      (∀ gone ∈ s.removed, ¬ old <+: gone ∧ ¬ gone <+: new ∧ ¬ new <+: gone) ∧
      (∀ entry ∈ s.writes, ¬ new <+: now s.renames entry.1) ∧ ∀ place ∈ s.landed, ¬ new <+: place
  | .remove place => (∀ entry ∈ s.renames, ¬ entry.1 <+: place) ∧
      (∀ entry ∈ s.writes, ¬ place <+: now s.renames entry.1) ∧ ∀ other ∈ s.landed, ¬ place <+: other

instance decidableApart (s : Sequence ν α) : (call : Call ν α) → Decidable (s.Apart call)
  | .write place _ => inferInstanceAs (Decidable (Passes s.renames place ∧ ∀ gone ∈ s.removed, ¬ gone <+: now s.renames place))
  | .rename old new => inferInstanceAs (Decidable (old ≠ new ∧ (∀ entry ∈ s.renames, ¬ entry.1 <+: old ∧ ¬ entry.1 <+: new) ∧
      (∀ gone ∈ s.removed, ¬ old <+: gone ∧ ¬ gone <+: new ∧ ¬ new <+: gone) ∧
      (∀ entry ∈ s.writes, ¬ new <+: now s.renames entry.1) ∧ ∀ place ∈ s.landed, ¬ new <+: place))
  | .remove place => inferInstanceAs (Decidable ((∀ entry ∈ s.renames, ¬ entry.1 <+: place) ∧
      (∀ entry ∈ s.writes, ¬ place <+: now s.renames entry.1) ∧ ∀ other ∈ s.landed, ¬ place <+: other))

/-- The contents last written at a place. -/
def last (writes : List (List ν × α)) (place : List ν) : Option α :=
  OrderedMap.get (OrderedMap.ofPairs writes) place

/-- What a sequence whose calls keep apart has left: the tree its calls leave with the writes first, then the renames,
then the removals, and all that was put down in it. -/
structure Sound (t : Tree ν α) (s : Sequence ν α) : Prop where
  leads : Leads t (writeCalls s.writes ++ (renameCalls s.renames ++ removeCalls s.removed)) s.tree.entry
  proper : ∀ entry ∈ s.renames, entry.1 ≠ entry.2
  distinct : (s.renames.map (·.1)).Nodup
  passes : ∀ entry ∈ s.writes, Passes s.renames entry.1
  stands : ∀ place contents, last s.writes place = some contents →
    s.tree.entry (now s.renames place) = some (.file contents)
  landed : ∀ place ∈ s.landed, s.tree.entry place ≠ none

variable {t : Tree ν α} {s : Sequence ν α} {call : Call ν α} {place old new : List ν} {contents : α}

theorem last_concat (writes : List (List ν × α)) (place other : List ν) (contents : α) :
    last (writes ++ [(place, contents)]) other = if place = other then some contents else last writes other := by
  rw [last, OrderedMap.ofPairs_snoc, OrderedMap.get_put]
  rfl

theorem mem_of_last {writes : List (List ν × α)} (h : last writes place = some contents) :
    place ∈ writes.map (·.1) := by
  by_contra hnot
  have hkeys : place ∉ (OrderedMap.ofPairs writes).map (·.1) := fun hkey => hnot (OrderedMap.mem_keys_ofPairs.mp hkey)
  rw [last, (OrderedMap.get_eq_none_iff _ _).mpr hkeys] at h
  cases h

/-- Calls that lead to a tree, led on by a call that was made in it. -/
theorem Sound.concat (h : Sound t s) {done : Call ν α} (hproper : done.Proper) (hmade : (done.make s.tree).raised = false) :
    Leads t (writeCalls s.writes ++ (renameCalls s.renames ++ (removeCalls s.removed ++ [done])))
      (done.make s.tree).tree.entry := by
  have hallowed := (Call.make_iff hproper).mp hmade
  have hleads := h.leads.concat hproper hallowed
  rw [List.append_assoc, List.append_assoc] at hleads
  rwa [Call.make_entry hproper hmade]

theorem Sound.write (h : Sound t s) (hapart : s.Apart (.write place contents))
    (hmade : ((Call.write (now s.renames place) contents).make s.tree).raised = false) :
    Sound t { s with tree := ((Call.write (now s.renames place) contents).make s.tree).tree,
                     raised := ((Call.write (now s.renames place) contents).make s.tree).raised,
                     writes := s.writes ++ [(place, contents)] } := by
  obtain ⟨hpass, hgone⟩ := hapart
  have hproper : (Call.write (now s.renames place) contents).Proper := trivial
  have hentry := Call.make_entry hproper hmade
  have hallowed := (Call.make_iff hproper).mp hmade
  refine ⟨?_, h.proper, h.distinct, fun entry hentry => ?_, fun other bytes hlast => ?_, fun other hother => ?_⟩
  · have hleads := (h.concat hproper hmade).tail fun u hu =>
      (hu.tail fun w => Leads.write_before_removes hgone).write_before_renames h.proper hpass proper_removeCalls
    rw [writeCalls, List.map_append, List.append_assoc]
    exact hleads
  · rcases List.mem_append.mp hentry with hold | hnew
    · exact h.passes entry hold
    · rw [List.mem_singleton.mp hnew]
      exact hpass
  · dsimp only at hlast ⊢
    rw [last_concat] at hlast
    rw [hentry]
    split at hlast
    · rename_i hsame
      rw [← hsame, Call.effect_write_self, Option.some.inj hlast]
    · rename_i hsame
      have hstands := h.stands other bytes hlast
      obtain ⟨written, hwritten, rfl⟩ := List.mem_map.mp (mem_of_last hlast)
      rw [Call.effect_write_apart fun habove => ?_, hstands]
      by_cases heq : now s.renames written.1 = now s.renames place
      · exact hsame (now_injective hpass (h.passes written hwritten) heq.symm)
      · exact hallowed.2.1 _ habove heq bytes hstands
  · dsimp only
    rw [hentry]
    exact Call.write_ne_none (h.landed other hother)

/-- What stands apart from a rename's target stands where the rename left it. -/
theorem entry_shift {e : Standing ν α} {other : List ν} (hallowed : (Call.rename old new : Call ν α).Allowed e)
    (hother : ¬ new <+: other) (hentry : e other ≠ none) :
    (Call.rename old new).effect e (shift old new other) ≠ none ∧ (∀ bytes, e other = some (.file bytes) →
      (Call.rename old new).effect e (shift old new other) = some (.file bytes)) := by
  by_cases hfrom : old <+: other
  · obtain ⟨inner, rfl⟩ := hfrom
    rw [shift_append, Call.effect_rename_landed]
    exact ⟨hentry, fun bytes => id⟩
  · rw [shift_of_not hfrom, Call.effect_rename_apart hfrom hother]
    split
    · rename_i habove
      refine ⟨Option.some_ne_none _, fun bytes hbytes => ?_⟩
      exact absurd hbytes (hallowed.2.2.2.1 other habove (fun heq => hother (heq ▸ List.prefix_refl _)) bytes)
    · exact ⟨hentry, fun bytes => id⟩

theorem Sound.rename (h : Sound t s) (hapart : s.Apart (.rename old new))
    (hmade : ((Call.rename (now s.renames old) (now s.renames new)).make s.tree).raised = false) :
    Sound t { s with tree := ((Call.rename (now s.renames old) (now s.renames new)).make s.tree).tree,
                     raised := ((Call.rename (now s.renames old) (now s.renames new)).make s.tree).raised,
                     renames := s.renames ++ [(now s.renames old, now s.renames new)],
                     landed := s.landed.map (shift (now s.renames old) (now s.renames new)) ++
                       [now s.renames new] } := by
  obtain ⟨hself, hmoved, hgone, hwrites, hlanded⟩ := hapart
  rw [now_eq_self fun entry hentry => (hmoved entry hentry).1,
    now_eq_self fun entry hentry => (hmoved entry hentry).2] at hmade ⊢
  have hproper : (Call.rename old new : Call ν α).Proper := hself
  have hentry := Call.make_entry hproper hmade
  have hallowed := (Call.make_iff hproper).mp hmade
  have hnow : ∀ place, now (s.renames ++ [(old, new)]) place = shift old new (now s.renames place) := fun place =>
    now_append _ _ place
  refine ⟨?_, fun entry hentry => ?_, ?_, fun entry hentry => ?_, fun other bytes hlast => ?_,
    fun other hother => ?_⟩
  · have hleads := (h.concat hproper hmade).tail fun u hu =>
      hu.tail fun w => Leads.rename_before_removes hself hgone
    dsimp only
    rw [renameCalls, List.map_append, List.append_assoc]
    exact hleads
  · rcases List.mem_append.mp hentry with hold | hnew
    · exact h.proper entry hold
    · exact (List.mem_singleton.mp hnew) ▸ hself
  · rw [List.map_append, List.map_singleton]
    refine List.nodup_append.mpr ⟨h.distinct, List.nodup_singleton _, fun one hone other hother => ?_⟩
    obtain ⟨entry, hentry, rfl⟩ := List.mem_map.mp hone
    rw [List.mem_singleton.mp hother]
    exact fun heq => (hmoved entry hentry).1 (heq ▸ List.prefix_refl _)
  · exact (passes_append _ _ _).mpr ⟨h.passes entry hentry, hwrites entry hentry, trivial⟩
  · dsimp only at hlast ⊢
    have hstands := h.stands other bytes hlast
    obtain ⟨written, hwritten, rfl⟩ := List.mem_map.mp (mem_of_last hlast)
    rw [hnow, hentry]
    exact (entry_shift hallowed (hwrites written hwritten) (by rw [hstands]; exact Option.some_ne_none _)).2 bytes hstands
  · dsimp only at hother ⊢
    rw [hentry]
    rcases List.mem_append.mp hother with hold | hnew
    · obtain ⟨landing, hlanding, rfl⟩ := List.mem_map.mp hold
      exact (entry_shift hallowed (hlanded landing hlanding) (h.landed landing hlanding)).1
    · have hland : (Call.rename old new).effect s.tree.entry (new ++ []) = s.tree.entry (old ++ []) :=
        Call.effect_rename_landed
      rw [List.append_nil, List.append_nil] at hland
      rw [List.mem_singleton.mp hnew, hland]
      exact hallowed.2.1

theorem Sound.remove (h : Sound t s) (hapart : s.Apart (.remove place))
    (hmade : ((Call.remove (now s.renames place)).make s.tree).raised = false) :
    Sound t { s with tree := ((Call.remove (now s.renames place)).make s.tree).tree,
                     raised := ((Call.remove (now s.renames place)).make s.tree).raised,
                     removed := s.removed ++ [now s.renames place] } := by
  obtain ⟨hmoved, hwrites, hlanded⟩ := hapart
  rw [now_eq_self hmoved] at hmade ⊢
  have hproper : (Call.remove place : Call ν α).Proper := trivial
  have hentry := Call.make_entry hproper hmade
  refine ⟨?_, h.proper, h.distinct, h.passes, fun other bytes hlast => ?_, fun other hother => ?_⟩
  · dsimp only
    rw [removeCalls, List.map_append]
    exact h.concat hproper hmade
  · dsimp only at hlast ⊢
    obtain ⟨written, hwritten, rfl⟩ := List.mem_map.mp (mem_of_last hlast)
    rw [hentry, Call.effect_remove_apart (hwrites written hwritten)]
    exact h.stands _ bytes hlast
  · dsimp only at hother ⊢
    rw [hentry, Call.effect_remove_apart (hlanded other hother)]
    exact h.landed other hother

/-- A call that keeps apart from those before it keeps the account of what they left. -/
theorem sound_step (h : s.raised = false → Sound t s) (hapart : s.Apart call) :
    (s.step call).raised = false → Sound t (s.step call) := by
  unfold step
  split
  · rename_i hraised
    intro hnot
    rw [hraised] at hnot
    cases hnot
  · rename_i hraised
    have hsound := h (Bool.eq_false_iff.mpr hraised)
    cases call with
    | write place contents => exact hsound.write hapart
    | rename old new => exact hsound.rename hapart
    | remove place => exact hsound.remove hapart

/-- The account holds of what every sequence of calls that keep apart has left. -/
theorem sound_run {calls : List (Call ν α)} (hapart : Runs.Each step Apart ({ tree := t } : Sequence ν α) calls) :
    (Runs.run step { tree := t } calls).raised = false → Sound t (Runs.run step { tree := t } calls) := by
  have hinit : ({ tree := t } : Sequence ν α).raised = false → Sound t { tree := t } := fun _ =>
    ⟨rfl, fun entry hentry => (List.not_mem_nil hentry).elim, List.nodup_nil, fun entry hentry => (List.not_mem_nil hentry).elim,
      fun place contents h => (by cases h), fun place hplace => (List.not_mem_nil hplace).elim⟩
  have hrun : ∀ s : Sequence ν α, ∀ call, (s.raised = false → Sound t s) → s.Apart call →
      ((s.step call).raised = false → Sound t (s.step call)) := fun s call hs hcall => sound_step hs hcall
  exact Runs.invariant_run hrun hinit hapart

/-- A sequence whose calls keep apart names what its calls name. -/
theorem run_lists {calls : List (Call ν α)} (hapart : Runs.Each step Apart s calls)
    (hraised : (Runs.run step s calls).raised = false) :
    (Runs.run step s calls).writes = s.writes ++ calls.filterMap Call.written ∧
      (Runs.run step s calls).renames = s.renames ++ calls.filterMap Call.renamePair ∧
      (Runs.run step s calls).removed = s.removed ++ calls.filterMap Call.removal := by
  have hended : ∀ (calls : List (Call ν α)) (s : Sequence ν α), s.raised = true →
      (Runs.run step s calls).raised = true := by
    intro calls
    induction calls with
    | nil => exact fun s h => h
    | cons call calls ih =>
        intro s h
        refine ih _ ?_
        have hstep : s.step call = s := if_pos h
        rwa [hstep]
  induction calls generalizing s with
  | nil => simp
  | cons call calls ih =>
      obtain ⟨hcall, hcalls⟩ := hapart
      have hstart : ¬ s.raised = true := fun h => by
        rw [hended (call :: calls) s h] at hraised
        cases hraised
      obtain ⟨hwrites, hrenames, hremoved⟩ := ih hcalls hraised
      rw [Runs.run_cons, hwrites, hrenames, hremoved]
      unfold step
      rw [if_neg hstart]
      cases call with
      | write place contents => simp [List.filterMap_cons, Call.written, Call.renamePair, Call.removal]
      | rename old new =>
          obtain ⟨-, hmoved, -⟩ := hcall
          simp [List.filterMap_cons, Call.written, Call.renamePair, Call.removal,
            now_eq_self fun entry hentry => (hmoved entry hentry).1, now_eq_self fun entry hentry => (hmoved entry hentry).2]
      | remove place =>
          obtain ⟨hmoved, -⟩ := hcall
          simp [List.filterMap_cons, Call.written, Call.renamePair, Call.removal, now_eq_self hmoved]

end Sequence

end FileTree
