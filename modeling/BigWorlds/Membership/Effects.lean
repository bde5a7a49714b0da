/-
What a step of the membership protocol can do.

- `Moves`: the messages of a handler, one row for each;
- `step_effect`: every step is one of the rows of `Effect`. The invariants of the other modules go through these cases.
-/
import BigWorlds.Membership.System

namespace BigWorlds.Membership

variable {α : Type}

/-! ## Handlers -/

/-- the leader whose manager is inside `AddWorker`, `PullModel` or `SetModel` for this handler -/
def Task.holding : Task α → Option LeaderId
  | .sendModel l _ _ _ _ _ | .modelSent l _ _ _ _ | .propagating l _ _ => some l
  | _ => none

/-- the answer to an introduction between workers is under way -/
def Task.isIntroduced : Task α → Bool
  | .introducedWorker _ _ _ => true
  | _ => false

/-- a handler asks leader `l` to enter worker `w`: over which link the model goes, what is entered, how it goes on -/
inductive Adds (l : LeaderId) (w : WorkerId) : Task α → Link → Registered α → Waiting → Task α → Prop where
  | register : Adds l w (.register w l) .local ⟨.local, []⟩ .register (.registered w l)
  | join (forOrphan : Bool) :
    Adds l w (.join w l forOrphan) (.remote false) ⟨.remote true, []⟩ (.join forOrphan) (.getModel w l forOrphan)
  | introduced (address : α) :
    Adds l w (.introduced l w address) (.remote true) ⟨.remote true, [address]⟩ .callWorker .done

variable (s : System α) (ok : Bool)

inductive Moves : Task α → Change α → Task α → Prop where
  | stays (t : Task α) : Moves t .nothing t
  | ends (t : Task α) (hholding : t.holding = none) (hfails : t.isIntroduced = true → ok = false) :
    Moves t .nothing .done
  | orphanFails (w : WorkerId) (l : LeaderId) : Moves (.join w l true) .nothing (.recheck w)
  | orphanUnanswered (w : WorkerId) (l : LeaderId) (model : Option Model) :
    Moves (.joined w l model true) .nothing (.recheck w)
  | reads (l : LeaderId) (w : WorkerId) (duplex : Bool) :
    Moves (.introduceLeader l w duplex) .nothing
      (.introducing l w duplex (s.worker w).leader.situation.isConnected)
  | keepsLeader (l : LeaderId) (w : WorkerId) (duplex : Bool) (t : Task α) (ht : t = .register w l ∨ t = .done) :
    Moves (.introducing l w duplex true) .nothing t
  | takesLeader (l : LeaderId) (w : WorkerId) (duplex : Bool) (t : Task α) (ht : t = .register w l ∨ t = .done) :
    Moves (.introducing l w duplex false) (.setLeader w (.of (.connected l .local))) t
  | enters {l : LeaderId} {w : WorkerId} {t : Task α} {link : Link} {entry : Registered α} {waiting : Waiting}
    {added : Task α} (hadds : Adds l w t link entry waiting added) (hfree : (s.leader l).free = true)
    (hmodel : (s.leader l).model = none) : Moves t (.insertWorker l w entry) added
  | holds {l : LeaderId} {w : WorkerId} {t : Task α} {link : Link} {entry : Registered α} {waiting : Waiting}
    {added : Task α} (model : Model) (hadds : Adds l w t link entry waiting added) (hfree : (s.leader l).free = true)
    (hmodel : (s.leader l).model = some model) : Moves t (.hold l) (.sendModel l w model link entry waiting)
  | registered (w : WorkerId) (l : LeaderId) :
    Moves (.registered w l) (.setLeader w (.of (.connected l .local))) .done
  | getsModel (w : WorkerId) (l : LeaderId) (forOrphan : Bool) :
    Moves (.getModel w l forOrphan) .nothing (.joined w l (s.leader l).model forOrphan)
  | getsNoModel (w : WorkerId) (l : LeaderId) (forOrphan : Bool) :
    Moves (.getModel w l forOrphan) .nothing (.joined w l none forOrphan)
  | joined (w : WorkerId) (l : LeaderId) (model : Option Model) (forOrphan : Bool) :
    Moves (.joined w l model forOrphan) (.setLeader w (.of (.connected l (.remote true))))
      (model.elim .done (.adopting w))
  | adopts (w : WorkerId) (model : Model) : Moves (.adopting w model) (.setModel w model) .done
  | lists (l : LeaderId) (w : WorkerId) (address : α) :
    Moves (.callWorker l w address) .nothing (.introduceWith l w address (s.leader l).workers)
  | arrives (l : LeaderId) (w : WorkerId) (address : α) (clusterView : FnvHashMap WorkerId (Registered α)) :
    Moves (.introduceWith l w address clusterView) .nothing (.viewing l w address clusterView)
  | viewed (l : LeaderId) (w : WorkerId) (address : α) (rest : FnvHashMap WorkerId (Registered α)) (t : Task α)
    (ht : t = .introduced l w address ∨ t = .done) :
    Moves (.viewing l w address rest) (.setLeader w (.of (.connected l (.remote false)))) t
  | sends (l : LeaderId) (w : WorkerId) (model : Model) (link : Link) (entry : Registered α) (waiting : Waiting)
    (hanswers : link.answers = true) :
    Moves (.sendModel l w model link entry waiting) (.setModel w model) (.modelSent l w entry waiting true)
  | sendFails (l : LeaderId) (w : WorkerId) (model : Model) (link : Link) (entry : Registered α) (waiting : Waiting)
    (hfails : ok = false) :
    Moves (.sendModel l w model link entry waiting) .nothing (.modelSent l w entry waiting false)
  | accepts (l : LeaderId) (w : WorkerId) (entry : Registered α) (waiting : Waiting) :
    Moves (.modelSent l w entry waiting true) (.insertWorker l w entry) (afterAdding w l waiting true)
  | refuses (l : LeaderId) (w : WorkerId) (entry : Registered α) (waiting : Waiting) (accepted : Bool) :
    Moves (.modelSent l w entry waiting accepted) (.release l) (afterAdding w l waiting false)
  | pulls (l : LeaderId) (model : Model) (hfree : (s.leader l).free = true) :
    Moves (.propagate l model) (.pullModel l model) (.propagating l model (s.leader l).workers)
  | propagated (l : LeaderId) (model : Model) (rest : FnvHashMap WorkerId (Registered α)) :
    Moves (.propagating l model rest) (.release l) .done
  | introduces (a b : WorkerId) (remote : Bool) :
    Moves (.introduceWorker a b remote) (.addOtherWorker b a (if remote then .remote false else .local))
      (.introducedWorker a b remote)
  | introduced (a b : WorkerId) (remote : Bool) :
    Moves (.introducedWorker a b remote) (.addOtherWorker a b (if remote then .remote true else .local)) .done
  | electionHeard (w sender : WorkerId) :
    Moves (.election w sender) (.addOtherWorker w sender (.remote false)) (.electionTaken w)
  | electionTaken (w : WorkerId) : Moves (.electionTaken w) (.setLeader w (.of .election)) .done
  | wakes (w : WorkerId) (oldLeaderAddrs : List α) : Moves (.orphan w oldLeaderAddrs) .nothing (.recheck w)
  | forks (w : WorkerId) (helection : (s.worker w).leader.situation ≠ .election)
    (hlost : (s.worker w).leader.situation.isConnected = false) : Moves (.recheck w) .nothing (.fork w)
  | givesUp (w : WorkerId) : Moves (.recheck w) (.cancel w) .done

variable {s ok}

theorem addWorker_moves {l : LeaderId} {w : WorkerId} {t : Task α} {link : Link} {entry : Registered α}
    {waiting : Waiting} {added : Task α} (hadds : Adds l w t link entry waiting added)
    (hfree : (s.leader l).free = true) :
    Moves s ok t (addWorker s l w link entry waiting added).1 (addWorker s l w link entry waiting added).2 := by
  unfold addWorker
  cases hm : (s.leader l).model with
  | none => exact .enters hadds hfree hm
  | some model => exact .holds model hadds hfree hm

/-- every message of a handler is a row of the table -/
theorem next_moves (t : Task α) : Moves s ok t (next s ok t).1 (next s ok t).2 := by
  cases t with
  | introduceLeader l w duplex =>
    simp only [next]
    split_ifs
    · exact .reads l w duplex
    · exact .ends _ rfl nofun
  | introducing l w duplex wasConnected =>
    simp only [next]
    have ht : ∀ t : Task α, t = (if (ok && duplex) = true then .register w l else .done) →
        t = .register w l ∨ t = .done := by
      intro t ht
      split_ifs at ht
      · exact Or.inl ht
      · exact Or.inr ht
    cases wasConnected with
    | false => exact .takesLeader l w duplex _ (ht _ rfl)
    | true => exact .keepsLeader l w duplex _ (ht _ rfl)
  | register w l =>
    simp only [next]
    split_ifs with h
    · exact addWorker_moves .register (Bool.and_eq_true_iff.mp h).2
    · exact .stays _
    · exact .ends _ rfl nofun
  | registered w l =>
    simp only [next]
    split_ifs
    · exact .registered w l
    · exact .ends _ rfl nofun
  | join w l forOrphan =>
    simp only [next]
    split_ifs with h _ horphan
    · exact addWorker_moves (.join forOrphan) (Bool.and_eq_true_iff.mp h).2
    · exact .stays _
    · subst horphan
      exact .orphanFails w l
    · exact .ends _ rfl nofun
  | getModel w l forOrphan =>
    simp only [next]
    split_ifs
    · exact .getsModel w l forOrphan
    · exact .stays _
    · exact .getsNoModel w l forOrphan
  | joined w l model forOrphan =>
    simp only [next]
    split_ifs with _ horphan
    · exact .joined w l model forOrphan
    · subst horphan
      exact .orphanUnanswered w l model
    · exact .ends _ rfl nofun
  | adopting w model => exact .adopts w model
  | callWorker l w address =>
    simp only [next]
    split_ifs
    · exact .lists l w address
    · exact .stays _
    · exact .ends _ rfl nofun
  | introduceWith l w address clusterView =>
    simp only [next]
    split_ifs
    · exact .arrives l w address clusterView
    · exact .ends _ rfl nofun
  | viewing l w address rest =>
    simp only [next]
    split_ifs
    · exact .viewed l w address rest _ (Or.inl rfl)
    · exact .viewed l w address rest _ (Or.inr rfl)
    · exact .stays _
  | introduced l w address =>
    simp only [next]
    split_ifs with h
    · exact addWorker_moves (.introduced address) (Bool.and_eq_true_iff.mp h).2
    · exact .stays _
    · exact .ends _ rfl nofun
  | sendModel l w model link entry waiting =>
    simp only [next]
    split_ifs with hok hanswers
    · exact .sends l w model link entry waiting (Bool.and_eq_true_iff.mp hanswers).1
    · exact .stays _
    · exact .sendFails l w model link entry waiting (by simpa using hok)
  | modelSent l w entry waiting accepted =>
    simp only [next]
    split_ifs with h
    · obtain rfl : accepted = true := (Bool.and_eq_true_iff.mp h).1
      exact .accepts l w entry waiting
    · exact .refuses l w entry waiting accepted
  | propagate l model =>
    simp only [next]
    split_ifs with h
    · exact .pulls l model (Bool.and_eq_true_iff.mp h).2
    · exact .stays _
    · exact .ends _ rfl nofun
  | propagating l model rest =>
    simp only [next]
    split_ifs
    · exact .propagated l model rest
    · exact .stays _
  | introduceWorker a b remote =>
    simp only [next]
    by_cases h : (ok && (s.worker b).running) = true
    · rw [if_pos h]
      exact .introduces a b remote
    · rw [if_neg h]
      exact .ends _ rfl nofun
  | introducedWorker a b remote =>
    simp only [next]
    by_cases h : ok = true
    · rw [if_pos h]
      exact .introduced a b remote
    · rw [if_neg h]
      exact .ends _ rfl fun _ => by simpa using h
  | election w sender => exact .electionHeard w sender
  | electionTaken w => exact .electionTaken w
  | orphan w oldLeaderAddrs =>
    cases oldLeaderAddrs with
    | nil => exact .wakes w []
    | cons address rest =>
      simp only [next]
      split_ifs
      · exact .stays _
      · exact .wakes w _
  | recheck w =>
    simp only [next]
    split
    · exact .ends _ rfl nofun
    · exact .ends _ rfl nofun
    · next helection hconnected =>
      split_ifs
      · refine .forks w helection ?_
        cases hs : (s.worker w).leader.situation with
        | connected l link => exact absurd hs (hconnected l link)
        | _ => rfl
      · exact .givesUp w
  | fork w => exact .stays _
  | done => exact .stays _

/-! ## Steps -/

/-- the commands and the handlers they start, at a party that runs -/
inductive Commands (s : System α) : Op α → Task α → Prop where
  | connectLeaderToLocalWorker (l : LeaderId) (w : WorkerId) (duplex : Bool) (hrunning : (s.leader l).running = true) :
    Commands s (.connectLeaderToLocalWorker l w duplex) (.introduceLeader l w duplex)
  | connectToLocalLeader (w : WorkerId) (l : LeaderId) (hrunning : (s.worker w).running = true) :
    Commands s (.connectToLocalLeader w l) (.register w l)
  | connectToLeader (w : WorkerId) (l : LeaderId) (hrunning : (s.worker w).running = true) :
    Commands s (.connectToLeader w l) (.join w l false)
  | connectToRemoteWorker (l : LeaderId) (w : WorkerId) (address : α) (hrunning : (s.leader l).running = true) :
    Commands s (.connectToRemoteWorker l w address) (.callWorker l w address)
  | connectToWorker (a b : WorkerId) (remote : Bool) (hrunning : (s.worker a).running = true) :
    Commands s (.connectToWorker a b remote) (.introduceWorker a b remote)
  | replaceModel (l : LeaderId) (model : Model) (hrunning : (s.leader l).running = true) :
    Commands s (.replaceModel l model) (.propagate l model)

/-- where the watcher of worker `w` goes -/
inductive Watches (s : System α) (w : WorkerId) : Watcher α → Watcher α → Prop where
  | wakes (hconnected : (s.worker w).leader.situation.isConnected = true) :
    Watches s w .asleep (.asking (s.worker w).leader)
  | answered (known : KnownLeader α) : Watches s w (.asking known) .asleep
  | unanswered (known : KnownLeader α) : Watches s w (.asking known) (.lost known)
  | alone (known : KnownLeader α) (h : (s.worker w).otherWorkers.keys = ∅) : Watches s w (.lost known) (.orphaned known)
  | notAlone (known : KnownLeader α) : Watches s w (.lost known) (.outvoted known)
  | lists : Watches s w .listing (.electing (s.worker w).otherWorkers)
  | sends (rest : FnvHashMap WorkerId Link) (other : WorkerId) :
      Watches s w (.electing rest) (.electing (rest.erase other))
  | ends (rest : FnvHashMap WorkerId Link) : Watches s w (.electing rest) .asleep

variable (s)

inductive Effect : Op α → System α → Prop where
  | idle (o : Op α) : Effect o s
  | command (o : Op α) (t : Task α) (h : Commands s o t) : Effect o (s.addTask t)
  | message (i : ℕ) (ok : Bool) (t : Task α) (c : Change α) (t' : Task α) (hi : s.tasks[i]? = some t)
    (hmoves : Moves s ok t c t') : Effect (.advance i ok) ((s.apply c).setTask i t')
  | viewSkips (i : ℕ) (id : WorkerId) (reached : Bool) (l : LeaderId) (w : WorkerId) (address : α)
    (rest : FnvHashMap WorkerId (Registered α)) (hi : s.tasks[i]? = some (.viewing l w address rest)) :
    Effect (.view i id reached) (s.setTask i (.viewing l w address (rest.erase id)))
  | viewFails (i : ℕ) (id : WorkerId) (reached : Bool) (l : LeaderId) (w : WorkerId) (address : α)
    (rest : FnvHashMap WorkerId (Registered α)) (hi : s.tasks[i]? = some (.viewing l w address rest)) :
    Effect (.view i id reached) (s.setTask i .done)
  | viewConnects (i : ℕ) (id : WorkerId) (l : LeaderId) (w : WorkerId) (address : α)
    (rest : FnvHashMap WorkerId (Registered α)) (hi : s.tasks[i]? = some (.viewing l w address rest))
    (link : Link) (first : α) (others : List α) (hid : rest.lookup id = some ⟨link, first :: others⟩) :
    Effect (.view i id true)
      ((s.apply (.addOtherWorker w id (.remote true))).setTask i (.viewing l w address (rest.erase id)))
  | modelSent (i : ℕ) (id : WorkerId) (l : LeaderId) (model : Model) (rest : FnvHashMap WorkerId (Registered α))
    (hi : s.tasks[i]? = some (.propagating l model rest)) :
    Effect (.sendModel i id true)
      ((s.apply (.setModel id model)).setTask i (.propagating l model (rest.erase id)))
  | modelRefused (i : ℕ) (id : WorkerId) (l : LeaderId) (model : Model) (rest : FnvHashMap WorkerId (Registered α))
    (hi : s.tasks[i]? = some (.propagating l model rest)) :
    Effect (.sendModel i id false) ((s.apply (.release l)).setTask i .done)
  | reconnects (i : ℕ) (l : LeaderId) (w : WorkerId) (address : α) (rest : List α)
    (hi : s.tasks[i]? = some (.orphan w (address :: rest))) : Effect (.reconnect i l) (s.setTask i (.join w l true))
  | forks (i : ℕ) (l : LeaderId) (w : WorkerId) (hi : s.tasks[i]? = some (.fork w)) (hl : l ∉ s.leaders) :
    Effect (.fork i l) (({ s with
      leaders := insert l s.leaders
      leader := Function.update s.leader l ⟨∅, none, false, true, some w⟩ } : System α).setTask i (.join w l false))
  | watches (o : Op α) (w : WorkerId) (p : Watcher α) (hwatches : Watches s w (s.worker w).watcher p) :
    Effect o (s.setWatcher w p)
  | orphaned (w : WorkerId) (ok : Bool) (known : KnownLeader α) (hp : (s.worker w).watcher = .orphaned known) :
    Effect (.watch w ok) (((s.apply (.setLeader w { known with situation := .orphanedWaiting })).setWatcher w
      .asleep).addTask (.orphan w known.listeners))
  | outvoted (w : WorkerId) (ok : Bool) (known : KnownLeader α) (hp : (s.worker w).watcher = .outvoted known) :
    Effect (.watch w ok) ((s.apply (.setLeader w { known with situation := .election })).setWatcher w .listing)
  | elects (w other : WorkerId) (delivered : Bool) (rest : FnvHashMap WorkerId Link)
    (hp : (s.worker w).watcher = .electing rest) (hother : rest.lookup other = some (.remote true)) :
    Effect (.elect w other delivered) ((s.setWatcher w (.electing (rest.erase other))).addTask (.election other w))
  | disconnects (w : WorkerId) (reached : Bool) (l : LeaderId) (hfree : (s.leader l).free = true) :
    Effect (.shutdown w reached) (s.onLeader l fun ld => { ld with workers := ld.workers.erase w })
  | cancelsWorker (w : WorkerId) : Effect (.cancelWorker w) (s.apply (.cancel w))
  | cancelsLeader (l : LeaderId) : Effect (.cancelLeader l) (s.onLeader l fun ld => { ld with running := false })

variable {s}

theorem accept_effect {o : Op α} {t : Task α} {running : Bool} (h : running = true → Commands s o t) :
    Effect s o (s.accept running t) := by
  unfold System.accept
  split_ifs with hrunning
  · exact .command o t (h hrunning)
  · exact .idle o

theorem watch_effect (w : WorkerId) (ok : Bool) : Effect s (.watch w ok) (s.watch w ok) := by
  unfold System.watch
  cases hp : (s.worker w).watcher with
  | asleep =>
    simp only
    split_ifs with h
    · exact .watches _ w _ (hp ▸ .wakes (Bool.and_eq_true_iff.mp h).2)
    · exact .idle _
  | asking known =>
    simp only
    split
    · split_ifs
      · exact .watches _ w _ (hp ▸ .answered known)
      · exact .idle _
      · exact .watches _ w _ (hp ▸ .unanswered known)
    · exact .idle _
  | lost known =>
    refine .watches _ w _ (hp ▸ ?_)
    split_ifs with h
    · exact .alone known h
    · exact .notAlone known
  | orphaned known => exact .orphaned w ok known hp
  | outvoted known => exact .outvoted w ok known hp
  | listing => exact .watches _ w _ (hp ▸ .lists)
  | electing rest =>
    simp only
    split_ifs
    · exact .watches _ w _ (hp ▸ .ends rest)
    · exact .idle _

theorem elect_effect (w other : WorkerId) (delivered : Bool) :
    Effect s (.elect w other delivered) (s.elect w other delivered) := by
  unfold System.elect
  split
  · next rest hp =>
    split
    · next link hother =>
      simp only
      split_ifs with h
      · have hlink : link = .remote true := by simpa using (Bool.and_eq_true_iff.mp (Bool.and_eq_true_iff.mp h).1).2
        exact .elects w other delivered rest hp (hlink ▸ hother)
      · exact .watches _ w _ (hp ▸ .sends rest other)
    · exact .idle _
  · exact .idle _

theorem view_effect (i : ℕ) (id : WorkerId) (reached : Bool) :
    Effect s (.view i id reached) (s.view i id reached) := by
  unfold System.view
  split
  · next l w address rest hi =>
    split
    · exact .viewSkips i id reached l w address rest hi
    · next link first others hid =>
      split_ifs with h
      · subst h
        exact .viewConnects i id l w address rest hi link first others hid
      · exact .viewFails i id reached l w address rest hi
    · exact .idle _
  · exact .idle _

theorem sendModel_effect (i : ℕ) (id : WorkerId) (ok : Bool) :
    Effect s (.sendModel i id ok) (s.sendModel i id ok) := by
  unfold System.sendModel
  split
  · next l model rest hi =>
    split
    · cases ok with
      | false => exact .modelRefused i id l model rest hi
      | true =>
        simp only [if_true]
        split_ifs
        · exact .modelSent i id l model rest hi
        · exact .idle _
    · exact .idle _
  · exact .idle _

theorem disconnect_effect (w : WorkerId) (reached : Bool) :
    Effect s (.shutdown w reached) (s.disconnect w reached) := by
  unfold System.disconnect
  split
  · next l link _ =>
    split_ifs with h
    · exact .disconnects w reached l (Bool.and_eq_true_iff.mp h).2
    · exact .idle _
  · exact .idle _

/-- **What a step can do.** -/
theorem step_effect (o : Op α) : Effect s o (s.step o) := by
  cases o with
  | connectLeaderToLocalWorker l w duplex => exact accept_effect (.connectLeaderToLocalWorker l w duplex)
  | connectToLocalLeader w l => exact accept_effect (.connectToLocalLeader w l)
  | connectToLeader w l => exact accept_effect (.connectToLeader w l)
  | connectToRemoteWorker l w address => exact accept_effect (.connectToRemoteWorker l w address)
  | connectToWorker a b remote => exact accept_effect (.connectToWorker a b remote)
  | replaceModel l model => exact accept_effect (.replaceModel l model)
  | shutdown w reached => exact disconnect_effect w reached
  | cancelWorker w => exact .cancelsWorker w
  | cancelLeader l => exact .cancelsLeader l
  | advance i ok =>
    simp only [System.step, System.advance]
    cases hi : s.tasks[i]? with
    | none => exact .idle _
    | some t => exact .message i ok t _ _ hi (next_moves t)
  | view i id reached => exact view_effect i id reached
  | sendModel i id ok => exact sendModel_effect i id ok
  | reconnect i l =>
    simp only [System.step, System.reconnect]
    split
    · next w address rest hi => exact .reconnects i l w address rest hi
    · exact .idle _
  | fork i l =>
    simp only [System.step, System.fork]
    split
    · next w hi =>
      split_ifs with hl
      · exact .idle _
      · exact .forks i l w hi hl
    · exact .idle _
  | watch w ok => exact watch_effect w ok
  | elect w other delivered => exact elect_effect w other delivered

end BigWorlds.Membership
