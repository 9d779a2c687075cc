import Lorica.Impl.Vigil.Main

/-!
# When vigil launches services

Whatever an input does is a sequence of small changes (`Change`): a launch of an active
service without a child, a command, a death, the end of a reaped child. Each of them keeps
`Inv`: the pids that services hold are those of the children, one each, and a launch takes
either the credit of a command or that of a restart. So it holds in every run
(`vigil_discipline`).

A restart of a service with a child is left to the code that reaps the child. That counts as
any other death: a oneshot service, or one without restarts, is not launched again
(`restart_honoured_iff`).
-/

namespace Lorica.Proof.Vigil

open Lorica.Impl.Vigil List

/-! ## The log -/

/-- The service that an entry is about. -/
def indexOf : Entry → Nat
  | .launch i => i
  | .start i => i
  | .restart i => i
  | .stop i => i
  | .exit i => i

/-- The launches of a service since its last start or restart by command. -/
def launchesSince (i : Nat) : List Entry → Nat
  | [] => 0
  | .launch j :: l => (if j = i then 1 else 0) + launchesSince i l
  | .start j :: l => if j = i then 0 else launchesSince i l
  | .restart j :: l => if j = i then 0 else launchesSince i l
  | .stop _ :: l => launchesSince i l
  | .exit _ :: l => launchesSince i l

/-- The last command for a service was to stop it. -/
def isStopped (i : Nat) : List Entry → Bool
  | [] => false
  | .launch _ :: l => isStopped i l
  | .start j :: l => if j = i then false else isStopped i l
  | .restart j :: l => if j = i then false else isStopped i l
  | .stop j :: l => if j = i then true else isStopped i l
  | .exit _ :: l => isStopped i l

/-- The service has exited, and was not started or restarted by command since. -/
def hasExited (i : Nat) : List Entry → Bool
  | [] => false
  | .launch _ :: l => hasExited i l
  | .start j :: l => if j = i then false else hasExited i l
  | .restart j :: l => if j = i then false else hasExited i l
  | .stop _ :: l => hasExited i l
  | .exit j :: l => if j = i then true else hasExited i l

section Other

variable {i : Nat} {e : Entry} (h : indexOf e ≠ i) (l : List Entry)
include h

theorem launchesSince_other : launchesSince i (e :: l) = launchesSince i l := by
  cases e <;> simp_all [indexOf, launchesSince]

theorem isStopped_other : isStopped i (e :: l) = isStopped i l := by
  cases e <;> simp_all [indexOf, isStopped]

theorem hasExited_other : hasExited i (e :: l) = hasExited i l := by
  cases e <;> simp_all [indexOf, hasExited]

end Other

/-! ## Changes -/

/-- A change of the world; commands, and what is left out of a boot, are for services in `cmd`
only. -/
inductive Change (cmd : Nat → Prop) (w : World) : World → Prop
  /-- an active service without a child is launched -/
  | launch {i q : Nat} {s : Service} (hs : w.svcs[i]? = some s) (hp : s.pid = none)
      (ha : s.active = true) (hq : ∀ c ∈ w.children, c.pid ≠ q) :
      Change cmd w ⟨w.svcs.set i { s with pid := some q }, ⟨q, i, false⟩ :: w.children, .launch i :: w.log⟩
  /-- a start or restart by command -/
  | order {i : Nat} {s : Service} {e : Entry} (x : Bool) (hc : cmd i) (hs : w.svcs[i]? = some s)
      (he : e = .start i ∨ e = .restart i) :
      Change cmd w ((w.put i { s with expectedStop := x, active := true, restarts := 0 }).note e)
  /-- a stop by command -/
  | stop {i : Nat} {s : Service} (x : Bool) (hc : cmd i) (hs : w.svcs[i]? = some s) :
      Change cmd w ((w.put i { s with expectedStop := x, active := false }).note (.stop i))
  /-- a service that is not for this boot -/
  | skip {i : Nat} {s : Service} (hc : cmd i) (hs : w.svcs[i]? = some s) :
      Change cmd w (w.put i { s with active := false })
  /-- a child dies -/
  | die {pid i : Nat} (ho : ownerOf w pid = some i) :
      Change cmd w { w with
        children := w.children.map fun c => if c.pid = pid then { c with dead := true } else c
        log := .exit i :: w.log }
  /-- the child of a service is reaped -/
  | reap {i p : Nat} {s : Service} (hs : w.svcs[i]? = some s) (hp : s.pid = some p) :
      Change cmd w (World.put { w with children := w.children.filter (·.pid ≠ p) } i (afterDeath s))
  /-- another child is reaped -/
  | forget {p : Nat} (h : ∀ s ∈ w.svcs, s.pid ≠ some p) :
      Change cmd w { w with children := w.children.filter (·.pid ≠ p) }

/-- A number of changes. -/
abbrev Changes (cmd : Nat → Prop) : World → World → Prop := Relation.ReflTransGen (Change cmd)

variable {w w' : World} {cmd : Nat → Prop} {i j p : Nat} {s s' t : Service} {l : List Entry}
  {e : Entry}

/-- What the rounds of a loop over the first `n` services keep. -/
theorem foldl_range_induct {K : Nat → World → Prop} {f : World → Nat → World} {n : Nat}
    (hf : ∀ w i, i < n → K i w → K (i + 1) (f w i)) (hw : K 0 w) : K n ((range n).foldl f w) := by
  induction n with
  | zero => exact hw
  | succ n ih =>
    rw [range_succ, foldl_append]
    exact hf _ n n.lt_succ_self (ih fun w i hi => hf w i (Nat.lt_succ_of_lt hi))

theorem startService_changes (hs : w.svcs[i]? = some s)
    (ha : s.active = true) (fork : Option Nat) : Changes cmd w (startService w i fork) := by
  simp only [startService, hs]
  cases hp : s.pid with
  | some p => exact .refl
  | none =>
    cases hq : forkResult w fork with
    | none => exact .refl
    | some q =>
      have hq := (Option.filter_eq_some_iff.mp hq).2
      simp only [decide_eq_true_eq] at hq
      exact .single (.launch hs hp ha hq.2)

theorem bootService_changes (hc : cmd i) (bootMode cmdline : Bytes)
    (forks : Nat → Option Nat) (ha : ∀ s, w.svcs[i]? = some s → s.active = true) :
    Changes cmd w (bootService bootMode cmdline forks w i) := by
  unfold bootService
  cases hs : w.svcs[i]? with
  | none => exact .refl
  | some s =>
    dsimp only
    split
    · exact .single (.skip hc hs)
    split
    · exact .single (.skip hc hs)
    · exact startService_changes hs (ha s hs) _

theorem commandService_changes {name : Bytes}
    (hc : ∀ s, w.svcs[i]? = some s → s.name = name → cmd i) (verb : Bytes) (forks : Nat → Option Nat) :
    Changes cmd w (commandService verb name forks w i) := by
  unfold commandService
  cases hs : w.svcs[i]? with
  | none => exact .refl
  | some s =>
    have hi : i < w.svcs.length := (List.getElem?_eq_some_iff.mp hs).1
    dsimp only
    split
    · exact .refl
    rename_i hn
    have hc := hc s hs (not_not.mp hn)
    split
    · split
      · -- a restart; without a child it is launched at once
        refine Relation.ReflTransGen.head (.order (s.expectedStop || s.pid.isSome) hc hs (.inr rfl)) ?_
        split
        · exact startService_changes (by simp [World.put, World.note, hi]; rfl) rfl _
        · exact .refl
      · exact .single (.stop _ hc hs)
    split
    · refine Relation.ReflTransGen.head (.order s.expectedStop hc hs (.inl rfl)) ?_
      exact startService_changes (by simp [World.put, World.note, hi]; rfl) rfl _
    · exact .refl

theorem retryService_changes (forks : Nat → Option Nat) (w : World) (i : Nat) :
    Changes cmd w (retryService forks w i) := by
  unfold retryService
  cases hs : w.svcs[i]? with
  | none => exact .refl
  | some s =>
    dsimp only
    split
    · rename_i h; exact startService_changes hs h.1 _
    · exact .refl

theorem reap_changes (w : World) (dead : Nat) (fork : Option Nat) : Changes cmd w (reap w dead fork) := by
  unfold reap
  dsimp only
  cases hf : w.svcs.findIdx? (·.pid = some dead) with
  | none =>
    refine .single (.forget fun s hs => ?_)
    simpa using findIdx?_eq_none_iff.mp hf s hs
  | some i =>
    obtain ⟨hi, hp, -⟩ := findIdx?_eq_some_iff_getElem.mp hf
    have hs : w.svcs[i]? = some w.svcs[i] := getElem?_eq_getElem hi
    simp only [hs]
    refine Relation.ReflTransGen.head (.reap hs (by simpa using hp)) ?_
    split
    · rename_i ha
      exact startService_changes (by simp [World.put, hi]) ha _
    · exact .refl

/-- What no change touches. -/
def configOf (s : Service) : Bytes × Policy × Int := (s.name, s.policy, s.maxRestarts)

@[simp] theorem configOf_afterDeath (s : Service) : configOf (afterDeath s) = configOf s := by
  unfold afterDeath
  dsimp only
  repeat' split
  all_goals rfl

theorem map_configOf_set {l : List Service} (hs : l[i]? = some s)
    (h : configOf s' = configOf s) : (l.set i s').map configOf = l.map configOf := by
  obtain ⟨hi, rfl⟩ := List.getElem?_eq_some_iff.mp hs
  rw [map_set, h, ← getElem_map configOf (h := by simpa using hi), set_getElem_self]

theorem Change.configs (h : Change cmd w w') : w'.svcs.map configOf = w.svcs.map configOf := by
  cases h with
  | launch hs hp ha hq => exact map_configOf_set hs rfl
  | order x hc hs he => exact map_configOf_set hs rfl
  | stop x hc hs => exact map_configOf_set hs rfl
  | skip hc hs => exact map_configOf_set hs rfl
  | die ho => rfl
  | reap hs hp => exact map_configOf_set hs (configOf_afterDeath _)
  | forget h => rfl

theorem Changes.configs (h : Changes cmd w w') : w'.svcs.map configOf = w.svcs.map configOf := by
  induction h with
  | refl => rfl
  | tail _ h ih => rw [h.configs, ih]

theorem exists_of_configs (h : w'.svcs.map configOf = w.svcs.map configOf)
    (hs : w'.svcs[i]? = some s) : ∃ s0, w.svcs[i]? = some s0 ∧ configOf s0 = configOf s := by
  have hcfg := congrArg (·[i]?) h
  simp only [getElem?_map, hs] at hcfg
  exact Option.map_eq_some_iff.mp hcfg.symm

/-- The services that a command file names. -/
def Named (w : World) (file : Bytes) (i : Nat) : Prop :=
  ∃ s verb, w.svcs[i]? = some s ∧ parseCmd (readFile 192 file) = some (verb, s.name)

theorem processCmd_changes {file : Bytes} (hc : ∀ i, Named w file i → cmd i)
    (forks : Nat → Option Nat) : Changes cmd w (processCmd w file forks) := by
  unfold processCmd
  cases hp : parseCmd (readFile 192 file) with
  | none => exact .refl
  | some c =>
    obtain ⟨verb, name⟩ := c
    refine foldl_range_induct (K := fun _ w' => Changes cmd w w') (fun w' i _ hw => ?_) .refl
    refine hw.trans (commandService_changes (fun s hs hn => hc i ?_) verb forks)
    -- the service was named so before the loop
    obtain ⟨s0, hs0, he⟩ := exists_of_configs hw.configs hs
    exact ⟨s0, verb, hs0, by rw [hp, ← hn]; exact congrArg (fun n => some (verb, n)) (congrArg Prod.fst he).symm⟩

theorem step_changes {a : Input}
    (hc : ∀ file forks, a = .usr1 file forks → ∀ i, Named w file i → cmd i) : Changes cmd w (step w a) := by
  cases a with
  | died pid =>
    simp only [step]
    cases ho : ownerOf w pid with
    | none => exact .refl
    | some i => exact .single (.die ho)
  | usr1 file forks => exact processCmd_changes (hc file forks rfl) forks
  | reaped pid fork =>
    simp only [step]
    split
    · exact .refl
    · exact reap_changes w pid fork
  | retry forks =>
    exact foldl_range_induct (K := fun _ w' => Changes cmd w w')
      (fun w' i _ hw => hw.trans (retryService_changes forks w' i)) .refl

/-! ## The invariant -/

/-- The children, and the services they belong to. -/
structure Kept (w : World) : Prop where
  nodup : (w.children.map Child.pid).Nodup
  owned : ∀ c ∈ w.children, ∃ s, w.svcs[c.owner]? = some s ∧ s.pid = some c.pid
  child : ∀ i s p, w.svcs[i]? = some s → s.pid = some p → ∃ c ∈ w.children, c.pid = p ∧ c.owner = i

/-- A service of index `i`, after what the log says. -/
structure Sound (i : Nat) (s : Service) (l : List Entry) : Prop where
  /-- a service that waits to be launched has the credit for it -/
  budget : launchesSince i l + (if s.active = true ∧ s.pid = none then 1 else 0) ≤ 1 + s.restarts
  limit : (s.restarts : Int) ≤ max s.maxRestarts 0
  stopped : isStopped i l = true → s.active = false
  exited : s.policy = .oneshot → hasExited i l = true → s.pid = none → s.active = false

/-- A launch was allowed by what came before it. -/
def Allowed (w : World) (i : Nat) (l : List Entry) : Prop :=
  isStopped i l = false ∧ ∀ s, w.svcs[i]? = some s → s.policy = .oneshot → hasExited i l = false

structure Inv (w : World) : Prop where
  kept : Kept w
  sound : ∀ i s, w.svcs[i]? = some s → Sound i s w.log
  launches : ∀ i pre post, w.log = post ++ .launch i :: pre → Allowed w i pre

theorem getElem?_set_some {l : List Service} {u : Service} (hs : l[i]? = some s)
    (h : (l.set i t)[j]? = some u) : (j = i ∧ u = t) ∨ (j ≠ i ∧ l[j]? = some u) := by
  by_cases hij : i = j
  · subst hij
    have hi : i < l.length := (List.getElem?_eq_some_iff.mp hs).1
    rw [getElem?_set_self hi] at h
    exact .inl ⟨rfl, (Option.some.inj h).symm⟩
  · rw [getElem?_set_ne hij] at h
    exact .inr ⟨Ne.symm hij, h⟩

theorem getElem?_set_hit {l : List Service} (hs : l[i]? = some s) : (l.set i t)[i]? = some t :=
  getElem?_set_self (List.getElem?_eq_some_iff.mp hs).1

/-- Two services have no child in common. -/
theorem Kept.pid_inj (h : Kept w) (hs : w.svcs[i]? = some s)
    (ht : w.svcs[j]? = some t) (hsp : s.pid = some p) (htp : t.pid = some p) : i = j := by
  obtain ⟨c, hc, hcp, rfl⟩ := h.child i s p hs hsp
  obtain ⟨d, hd, hdp, rfl⟩ := h.child j t p ht htp
  rw [inj_on_of_nodup_map h.nodup hc hd (hcp.trans hdp.symm)]

/-- A change of a service that leaves its pid alone. -/
theorem Kept.set (h : Kept w) (hs : w.svcs[i]? = some s)
    (hp : s'.pid = s.pid) (l : List Entry) : Kept ⟨w.svcs.set i s', w.children, l⟩ where
  nodup := h.nodup
  owned c hc := by
    obtain ⟨t, ht, htp⟩ := h.owned c hc
    by_cases hi : c.owner = i
    · rw [hi] at ht ⊢
      obtain rfl : t = s := Option.some.inj (ht.symm.trans hs)
      exact ⟨s', getElem?_set_hit hs, hp.trans htp⟩
    · exact ⟨t, by rw [getElem?_set_ne (Ne.symm hi)]; exact ht, htp⟩
  child j t p ht htp := by
    rcases getElem?_set_some hs ht with ⟨rfl, rfl⟩ | ⟨-, ht⟩
    · exact h.child j s p hs (hp ▸ htp)
    · exact h.child j t p ht htp

theorem Kept.launch (h : Kept w) {q : Nat} (hs : w.svcs[i]? = some s)
    (hp : s.pid = none) (hq : ∀ c ∈ w.children, c.pid ≠ q) (l : List Entry) :
    Kept ⟨w.svcs.set i { s with pid := some q }, ⟨q, i, false⟩ :: w.children, l⟩ where
  nodup := by
    rw [map_cons, nodup_cons]
    refine ⟨fun hm => ?_, h.nodup⟩
    obtain ⟨c, hc, hcq⟩ := mem_map.mp hm
    exact hq c hc hcq
  owned c hc := by
    rcases mem_cons.mp hc with rfl | hc
    · exact ⟨_, getElem?_set_hit hs, rfl⟩
    · obtain ⟨t, ht, htp⟩ := h.owned c hc
      have hi : i ≠ c.owner := by
        rintro rfl
        obtain rfl : t = s := Option.some.inj (ht.symm.trans hs)
        rw [hp] at htp; cases htp
      exact ⟨t, by rw [getElem?_set_ne hi]; exact ht, htp⟩
  child j t p ht htp := by
    rcases getElem?_set_some hs ht with ⟨rfl, rfl⟩ | ⟨-, ht⟩
    · exact ⟨_, mem_cons_self, Option.some.inj htp, rfl⟩
    · obtain ⟨c, hc, hcp⟩ := h.child j t p ht htp
      exact ⟨c, mem_cons_of_mem _ hc, hcp⟩

theorem Kept.reap (h : Kept w) (hs : w.svcs[i]? = some s)
    (hp : s.pid = some p) (hp' : s'.pid = none) (l : List Entry) :
    Kept ⟨w.svcs.set i s', w.children.filter (·.pid ≠ p), l⟩ where
  nodup := h.nodup.sublist (List.Sublist.map _ filter_sublist)
  owned c hc := by
    obtain ⟨hc, hne⟩ := mem_filter.mp hc
    obtain ⟨t, ht, htp⟩ := h.owned c hc
    have hi : i ≠ c.owner := by
      rintro rfl
      obtain rfl : t = s := Option.some.inj (ht.symm.trans hs)
      rw [hp] at htp
      simp [Option.some.inj htp] at hne
    exact ⟨t, by rw [getElem?_set_ne hi]; exact ht, htp⟩
  child j t q ht htq := by
    rcases getElem?_set_some hs ht with ⟨rfl, rfl⟩ | ⟨hj, ht'⟩
    · rw [hp'] at htq; cases htq
    · obtain ⟨c, hc, hcq, hco⟩ := h.child j t q ht' htq
      refine ⟨c, mem_filter.mpr ⟨hc, ?_⟩, hcq, hco⟩
      have : q ≠ p := by rintro rfl; exact hj (h.pid_inj ht' hs htq hp)
      simpa [hcq] using this

theorem Kept.forget (h : Kept w) (hp : ∀ s ∈ w.svcs, s.pid ≠ some p) :
    Kept { w with children := w.children.filter (·.pid ≠ p) } where
  nodup := h.nodup.sublist (List.Sublist.map _ filter_sublist)
  owned c hc := h.owned c (mem_filter.mp hc).1
  child i s q hs hsq := by
    obtain ⟨c, hc, hcq, hco⟩ := h.child i s q hs hsq
    refine ⟨c, mem_filter.mpr ⟨hc, ?_⟩, hcq, hco⟩
    have : q ≠ p := by rintro rfl; exact hp s (mem_of_getElem? hs) hsq
    simpa [hcq] using this

theorem Kept.die (h : Kept w) (p : Nat) (l : List Entry) :
    Kept ⟨w.svcs, w.children.map fun c => if c.pid = p then { c with dead := true } else c, l⟩ := by
  have hpid (c : Child) : (if c.pid = p then { c with dead := true } else c).pid = c.pid := by split <;> rfl
  have hown (c : Child) : (if c.pid = p then { c with dead := true } else c).owner = c.owner := by split <;> rfl
  constructor
  · rw [map_map]
    simpa only [Function.comp_def, hpid] using h.nodup
  · intro c hc
    obtain ⟨d, hd, rfl⟩ := mem_map.mp hc
    simpa only [hpid, hown] using h.owned d hd
  · intro i s q hs hsq
    obtain ⟨c, hc, hcq, hco⟩ := h.child i s q hs hsq
    exact ⟨_, mem_map_of_mem hc, (hpid c).trans hcq, (hown c).trans hco⟩

/-- An entry about another service. -/
theorem Sound.other (h : Sound i s l) (he : indexOf e ≠ i) : Sound i s (e :: l) where
  budget := by rw [launchesSince_other he]; exact h.budget
  limit := h.limit
  stopped := by rw [isStopped_other he]; exact h.stopped
  exited := by rw [hasExited_other he]; exact h.exited

theorem Sound.launch {q : Nat} (h : Sound i s l) (hp : s.pid = none)
    (ha : s.active = true) : Sound i { s with pid := some q } (.launch i :: l) where
  budget := by
    have := h.budget
    simp only [ha, hp, and_self, if_true] at this
    simp only [launchesSince, if_true, reduceCtorEq, and_false, if_false]
    omega
  limit := h.limit
  stopped hs := h.stopped hs
  exited _ _ hp := by cases hp

theorem Sound.order (x : Bool) (he : e = .start i ∨ e = .restart i) :
    Sound i { s with expectedStop := x, active := true, restarts := 0 } (e :: l) := by
  have hl : launchesSince i (e :: l) = 0 ∧ isStopped i (e :: l) = false ∧ hasExited i (e :: l) = false := by
    rcases he with rfl | rfl <;> simp [launchesSince, isStopped, hasExited]
  constructor
  · rw [hl.1]; split <;> simp
  · simp
  · rw [hl.2.1]; intro h; cases h
  · rw [hl.2.2]; intro _ h; cases h

theorem Sound.stop (h : Sound i s l) (x : Bool) :
    Sound i { s with expectedStop := x, active := false } (.stop i :: l) where
  budget := by
    have := h.budget
    simp only [launchesSince, Bool.false_eq_true, false_and, if_false]
    omega
  limit := h.limit
  stopped _ := rfl
  exited _ _ _ := rfl

theorem Sound.skip (h : Sound i s l) : Sound i { s with active := false } l where
  budget := by
    have := h.budget
    simp only [Bool.false_eq_true, false_and, if_false]
    omega
  limit := h.limit
  stopped _ := rfl
  exited _ _ _ := rfl

theorem Sound.exit (h : Sound i s l) (hp : s.pid = some p) : Sound i s (.exit i :: l) where
  budget := h.budget
  limit := h.limit
  stopped hs := h.stopped hs
  exited _ _ hn := by rw [hp] at hn; cases hn

@[simp] theorem pid_afterDeath (s : Service) : (afterDeath s).pid = none := by
  unfold afterDeath
  dsimp only
  repeat' split
  all_goals rfl

/-- A death costs a restart, or the service is launched no more. -/
theorem afterDeath_cases (s : Service) : ((afterDeath s).active = false ∧ (afterDeath s).restarts = s.restarts) ∨
      (s.active = true ∧ s.policy = .respawn ∧ (s.restarts : Int) < s.maxRestarts ∧
        (afterDeath s).active = true ∧ (afterDeath s).restarts = s.restarts + 1) := by
  unfold afterDeath
  dsimp only
  split
  · rename_i h; exact .inl ⟨h, rfl⟩
  rename_i ha
  split
  · exact .inl ⟨rfl, rfl⟩
  rename_i hp
  split
  · exact .inl ⟨rfl, rfl⟩
  rename_i hm
  refine .inr ⟨by simpa using ha, ?_, by simpa using hm, by simpa using ha, rfl⟩
  cases hs : s.policy with
  | respawn => rfl
  | oneshot => exact absurd hs hp

theorem Sound.reap (h : Sound i s l) : Sound i (afterDeath s) l := by
  have hcfg := configOf_afterDeath s
  simp only [configOf, Prod.mk.injEq] at hcfg
  have hb := h.budget
  have hl := h.limit
  rcases afterDeath_cases s with ⟨ha, hr⟩ | ⟨ha, hpol, hm, ha', hr⟩
  · constructor
    · rw [hr]; simp only [ha, Bool.false_eq_true, false_and, if_false]; omega
    · rw [hr, hcfg.2.2]; exact hl
    · exact fun _ => ha
    · exact fun _ _ _ => ha
  · constructor
    · rw [hr]; split <;> omega
    · rw [hr]; push_cast; omega
    · intro hs; rw [h.stopped hs] at ha; cases ha
    · intro hs; rw [hcfg.2.1, hpol] at hs; cases hs

theorem Allowed.congr (hc : w'.svcs.map configOf = w.svcs.map configOf) (h : Allowed w i l) : Allowed w' i l := by
  refine ⟨h.1, fun s hs hp => ?_⟩
  obtain ⟨s0, hs0, he⟩ := exists_of_configs hc hs
  exact h.2 s0 hs0 ((congrArg (·.2.1) he).trans hp)

/-- One service changes, with at most one entry about it in the log. -/
theorem Inv.set (h : Inv w) {cs : List Child} (es : List Entry)
    (hs : w.svcs[i]? = some s) (hcfg : configOf s' = configOf s) (hk : Kept ⟨w.svcs.set i s', cs, es ++ w.log⟩)
    (he : es = [] ∨ ∃ e, es = [e] ∧ indexOf e = i) (hsound : Sound i s' (es ++ w.log))
    (hl : es = [.launch i] → Allowed w i w.log) : Inv ⟨w.svcs.set i s', cs, es ++ w.log⟩ where
  kept := hk
  sound j t ht := by
    rcases getElem?_set_some hs ht with ⟨rfl, rfl⟩ | ⟨hj, ht⟩
    · exact hsound
    · have := h.sound j t ht
      rcases he with rfl | ⟨e, rfl, rfl⟩
      · exact this
      · exact this.other (Ne.symm hj)
  launches j pre post hlog := by
    refine Allowed.congr (w := w) (map_configOf_set hs hcfg) ?_
    rcases he with rfl | ⟨e, rfl, rfl⟩
    · exact h.launches j pre post hlog
    · cases post with
      | nil =>
        obtain ⟨rfl, rfl⟩ := cons.inj hlog
        exact hl rfl
      | cons a post => exact h.launches j pre post (cons.inj hlog).2

/-- A service that waits to be launched may be. -/
theorem Sound.allowed (h : Sound i s w.log) (hs : w.svcs[i]? = some s)
    (hp : s.pid = none) (ha : s.active = true) : Allowed w i w.log := by
  constructor
  · by_contra hst
    rw [h.stopped (by simpa using hst)] at ha; cases ha
  · intro t ht hpol
    obtain rfl : t = s := Option.some.inj (ht.symm.trans hs)
    by_contra hex
    rw [h.exited hpol (by simpa using hex) hp] at ha; cases ha

theorem ownerOf_eq_some {pid : Nat} (h : ownerOf w pid = some i) : ∃ c ∈ w.children, c.pid = pid ∧ c.owner = i := by
  obtain ⟨c, hc, rfl⟩ := Option.map_eq_some_iff.mp h
  have := find?_some hc
  simp only [decide_eq_true_eq] at this
  exact ⟨c, mem_of_find?_eq_some hc, this.1, rfl⟩

theorem Inv.change (h : Inv w) (hc : Change cmd w w') : Inv w' := by
  cases hc with
  | launch hs hp ha hq =>
    have hsound := h.sound _ _ hs
    exact h.set [.launch _] hs rfl (h.kept.launch hs hp hq _) (.inr ⟨_, rfl, rfl⟩)
      (hsound.launch hp ha) fun _ => hsound.allowed hs hp ha
  | order x hc hs he =>
    refine h.set [_] hs rfl (h.kept.set hs (by rfl) _) (.inr ⟨_, rfl, ?_⟩) (Sound.order x he) ?_
    · rcases he with rfl | rfl <;> rfl
    · rcases he with rfl | rfl <;> simp
  | stop x hc hs =>
    exact h.set [.stop _] hs rfl (h.kept.set hs (by rfl) _) (.inr ⟨_, rfl, rfl⟩)
      ((h.sound _ _ hs).stop x) (by simp)
  | skip hc hs =>
    exact h.set [] hs rfl (h.kept.set hs (by rfl) _) (.inl rfl) (h.sound _ _ hs).skip (by simp)
  | die ho =>
    obtain ⟨c, hcm, rfl, rfl⟩ := ownerOf_eq_some ho
    obtain ⟨s, hs, hp⟩ := h.kept.owned c hcm
    refine ⟨h.kept.die _ _, fun j t ht => ?_, fun j pre post hlog => ?_⟩
    · by_cases hj : c.owner = j
      · subst hj
        obtain rfl : t = s := Option.some.inj (ht.symm.trans hs)
        exact (h.sound _ _ hs).exit hp
      · exact (h.sound j t ht).other hj
    · cases post with
      | nil => cases (cons.inj hlog).1
      | cons a post => exact h.launches j pre post (cons.inj hlog).2
  | reap hs hp =>
    exact h.set [] hs (configOf_afterDeath _) (h.kept.reap hs hp (pid_afterDeath _) _) (.inl rfl)
      (h.sound _ _ hs).reap (by simp)
  | forget hf => exact ⟨h.kept.forget hf, h.sound, h.launches⟩

theorem Inv.changes (h : Inv w) (hc : Changes cmd w w') : Inv w' := by
  induction hc with
  | refl => exact h
  | tail _ hc ih => exact ih.change hc

/-- A service, and what the log says of its launches, are as they were. -/
def Untouched (i : Nat) (w w' : World) : Prop :=
  w'.svcs[i]? = w.svcs[i]? ∧ launchesSince i w'.log = launchesSince i w.log

theorem Untouched.trans {w1 w2 w3 : World} (h : Untouched i w1 w2) (h' : Untouched i w2 w3) : Untouched i w1 w3 :=
  ⟨h'.1.trans h.1, h'.2.trans h.2⟩

theorem untouched_put (hj : j ≠ i) (s : Service) : Untouched j w (w.put i s) :=
  ⟨getElem?_set_ne hj.symm, rfl⟩

theorem untouched_note (hj : indexOf e ≠ j) : Untouched j w (w.note e) :=
  ⟨rfl, launchesSince_other hj _⟩

theorem startService_other (hj : j ≠ i) (fork : Option Nat) : Untouched j w (startService w i fork) := by
  unfold startService
  cases hs : w.svcs[i]? with
  | none => exact ⟨rfl, rfl⟩
  | some s =>
    dsimp only
    split
    · exact ⟨rfl, rfl⟩
    cases forkResult w fork with
    | none => exact ⟨rfl, rfl⟩
    | some q =>
      have he : indexOf (.launch i) ≠ j := hj.symm
      exact ⟨getElem?_set_ne hj.symm, launchesSince_other he _⟩

theorem bootService_other (hj : j ≠ i) (bootMode cmdline : Bytes)
    (forks : Nat → Option Nat) : Untouched j w (bootService bootMode cmdline forks w i) := by
  unfold bootService
  cases hs : w.svcs[i]? with
  | none => exact ⟨rfl, rfl⟩
  | some s =>
    dsimp only
    split
    · exact untouched_put hj _
    split
    · exact untouched_put hj _
    · exact startService_other hj _

theorem commandService_other (hj : j ≠ i) (verb name : Bytes)
    (forks : Nat → Option Nat) : Untouched j w (commandService verb name forks w i) := by
  have hnote : ∀ s e, indexOf e = i → Untouched j w ((w.put i s).note e) := fun s e he =>
    (untouched_put hj s).trans (untouched_note (he ▸ hj.symm))
  unfold commandService
  cases hs : w.svcs[i]? with
  | none => exact ⟨rfl, rfl⟩
  | some s =>
    dsimp only
    split
    · exact ⟨rfl, rfl⟩
    split
    · split
      · split
        · exact (hnote _ (.restart i) rfl).trans (startService_other hj _)
        · exact hnote _ (.restart i) rfl
      · exact hnote _ (.stop i) rfl
    split
    · exact (hnote _ (.start i) rfl).trans (startService_other hj _)
    · exact ⟨rfl, rfl⟩

theorem inv_loaded (cfgs : List Config) : Inv ⟨cfgs.map loadService, [], []⟩ := by
  have hl : ∀ (i : Nat) s, (cfgs.map loadService)[i]? = some s → ∃ c, s = loadService c := by
    intro i s hs
    rw [getElem?_map] at hs
    obtain ⟨c, -, rfl⟩ := Option.map_eq_some_iff.mp hs
    exact ⟨c, rfl⟩
  refine ⟨⟨nodup_nil, by simp, fun i s p hs hp => ?_⟩, fun i s hs => ?_, by simp⟩
  · obtain ⟨c, rfl⟩ := hl i s hs
    cases hp
  · obtain ⟨c, rfl⟩ := hl i s hs
    refine ⟨by simp [launchesSince, loadService], by simp [loadService], ?_, ?_⟩
    · intro h; cases h
    · intro _ h; cases h

theorem inv_boot (cfgs : List Config) (bootMode cmdline : Bytes) (forks : Nat → Option Nat) :
    Inv (boot cfgs bootMode cmdline forks) := by
  -- the services from the round's on are as they were loaded
  have h := foldl_range_induct (n := cfgs.length) (f := bootService bootMode cmdline forks)
    (K := fun i w => Inv w ∧ ∀ j, i ≤ j → ∀ s, w.svcs[j]? = some s → s.active = true)
    (w := ⟨cfgs.map loadService, [], []⟩) ?_ ⟨inv_loaded cfgs, ?_⟩
  · exact h.1
  · rintro w i - ⟨hi, ha⟩
    have hc : Changes (fun _ => True) w _ := bootService_changes trivial bootMode cmdline forks (ha i le_rfl)
    refine ⟨hi.changes hc, fun j hj s hs => ha j (by omega) s ?_⟩
    rwa [(bootService_other (by omega) bootMode cmdline forks).1] at hs
  · intro j _ s hs
    rw [getElem?_map] at hs
    obtain ⟨c, -, rfl⟩ := Option.map_eq_some_iff.mp hs
    rfl

theorem Inv.run (h : Inv w) (ins : List Input) : Inv (run w ins) := by
  induction ins generalizing w with
  | nil => exact h
  | cons a ins ih =>
    have hc : Changes (fun _ => True) w (step w a) := step_changes fun _ _ _ _ _ => trivial
    exact ih (h.changes hc)

/-! ## The discipline -/

/-- How services are launched. -/
structure Disciplined (w : World) : Prop where
  /-- a service has one child that lives at most -/
  single : ∀ i, (w.children.filter fun c => c.owner = i ∧ c.dead = false).length ≤ 1
  /-- launches since the last start or restart by command -/
  budget : ∀ i s, w.svcs[i]? = some s → (launchesSince i w.log : Int) ≤ 1 + max s.maxRestarts 0
  /-- a service that was stopped is not launched -/
  stopped : ∀ i pre post, w.log = post ++ .launch i :: pre → isStopped i pre = false
  /-- a oneshot service that exited is not launched -/
  exited : ∀ i s pre post, w.svcs[i]? = some s → s.policy = .oneshot → w.log = post ++ .launch i :: pre →
    hasExited i pre = false

theorem Kept.single (h : Kept w) (i : Nat) :
    (w.children.filter fun c => c.owner = i ∧ c.dead = false).length ≤ 1 := by
  have hn : (w.children.filter fun c => c.owner = i ∧ c.dead = false).Nodup := h.nodup.of_map.filter _
  have heq : ∀ c ∈ w.children.filter (fun c => c.owner = i ∧ c.dead = false),
      ∀ d ∈ w.children.filter (fun c => c.owner = i ∧ c.dead = false), c = d := by
    intro c hc d hd
    simp only [mem_filter, decide_eq_true_eq] at hc hd
    obtain ⟨s, hs, hsp⟩ := h.owned c hc.1
    obtain ⟨t, ht, htp⟩ := h.owned d hd.1
    rw [hc.2.1] at hs
    rw [hd.2.1] at ht
    obtain rfl : s = t := Option.some.inj (hs.symm.trans ht)
    exact inj_on_of_nodup_map h.nodup hc.1 hd.1 (Option.some.inj (hsp.symm.trans htp))
  generalize w.children.filter (fun c => c.owner = i ∧ c.dead = false) = cs at hn heq
  rcases cs with _ | ⟨c, _ | ⟨d, cs⟩⟩
  · simp
  · simp
  · have : c = d := heq c (by simp) d (by simp)
    simp [this] at hn

/-- However deaths, commands, failures of `fork` and passes follow each other after a start of the
system with any services, vigil launches them as it should. -/
theorem vigil_discipline (cfgs : List Config) (bootMode cmdline : Bytes) (forks : Nat → Option Nat)
    (ins : List Input) : Disciplined (run (boot cfgs bootMode cmdline forks) ins) := by
  have h := (inv_boot cfgs bootMode cmdline forks).run ins
  refine ⟨h.kept.single, fun (i : Nat) (s : Service) hs => ?_, fun i pre post hl => (h.launches i pre post hl).1,
    fun i s pre post hs hp hl => (h.launches i pre post hl).2 s hs hp⟩
  have hb := (h.sound i s hs).budget
  have hm := (h.sound i s hs).limit
  omega

/-! ## Restarts -/

/-- Inputs without a command for a name. -/
def Unnamed (name : Bytes) (ins : List Input) : Prop :=
  ∀ file forks verb, Input.usr1 file forks ∈ ins → parseCmd (readFile 192 file) ≠ some (verb, name)

/-- A restart of a service with a child only sets it to be launched. -/
theorem processCmd_restart {file : Bytes} (hs : w.svcs[i]? = some s)
    (hp : s.pid = some p) (hcmd : parseCmd (readFile 192 file) = some (ascii "restart", s.name))
    (forks : Nat → Option Nat) :
    (processCmd w file forks).svcs[i]? = some { s with expectedStop := true, active := true, restarts := 0 } ∧
      launchesSince i (processCmd w file forks).log = 0 := by
  have hi : i < w.svcs.length := (List.getElem?_eq_some_iff.mp hs).1
  simp only [processCmd, hcmd]
  have h := foldl_range_induct (n := w.svcs.length) (f := commandService (ascii "restart") s.name forks) (w := w)
    (K := fun j w' => (j ≤ i → w'.svcs[i]? = some s) ∧
      (i < j → w'.svcs[i]? = some { s with expectedStop := true, active := true, restarts := 0 } ∧
        launchesSince i w'.log = 0)) ?_ ⟨fun _ => hs, fun h => absurd h (Nat.not_lt_zero i)⟩
  · exact h.2 hi
  · rintro w' j - ⟨hbefore, hafter⟩
    rcases lt_trichotomy j i with hj | rfl | hj
    · refine ⟨fun _ => ?_, fun h => by omega⟩
      rw [(commandService_other (by omega) _ _ _).1]
      exact hbefore hj.le
    · refine ⟨fun h => by omega, fun _ => ?_⟩
      have hs' := hbefore le_rfl
      simp [commandService, hs', hp, World.put, World.note, launchesSince, getElem?_set_hit hs']
    · refine ⟨fun h => by omega, fun _ => ?_⟩
      have hu := commandService_other (w := w') (i := j) (j := i) (by omega) (ascii "restart") s.name forks
      rw [hu.1, hu.2]
      exact hafter hj

theorem run_changes (hs : w.svcs[i]? = some s) {ins : List Input}
    (hn : Unnamed s.name ins) : Changes (· ≠ i) w (run w ins) := by
  induction ins generalizing w s with
  | nil => exact .refl
  | cons a ins ih =>
    have hc : Changes (· ≠ i) w (step w a) := by
      refine step_changes fun file forks ha j hj => ?_
      rintro rfl
      obtain ⟨t, verb, ht, hp⟩ := hj
      obtain rfl : t = s := Option.some.inj (ht.symm.trans hs)
      exact hn file forks verb (ha ▸ mem_cons_self) hp
    -- the name of the service stays
    obtain ⟨s', hs', he⟩ := exists_of_configs hc.configs.symm hs
    have hname : s'.name = s.name := congrArg Prod.fst he
    exact hc.trans (ih hs' fun file forks verb hm => hname ▸ hn file forks verb (mem_cons_of_mem _ hm))

/-- A service that was launched no more since its restart, and will not be. -/
def Dropped (i : Nat) (c : Bytes × Policy × Int) (w : World) : Prop :=
  launchesSince i w.log = 0 ∧
    ∃ s, w.svcs[i]? = some s ∧ configOf s = c ∧ s.restarts = 0 ∧ (s.pid = none → s.active = false)

/-- A service that was launched since its restart, or is to be when its child is reaped, or has
no child. -/
def Due (i : Nat) (w : World) : Prop :=
  0 < launchesSince i w.log ∨
    ∃ s, w.svcs[i]? = some s ∧ (s.pid = none ∨ (s.active = true ∧ s.restarts = 0))

/-- What a change without a command for a service does to it. -/
theorem Change.service (hw : Change (· ≠ i) w w') (hs : w.svcs[i]? = some s) : Untouched i w w' ∨
      (s.pid = none ∧ s.active = true ∧ 0 < launchesSince i w'.log) ∨
      (s.pid ≠ none ∧ w'.svcs[i]? = some (afterDeath s) ∧ launchesSince i w'.log = launchesSince i w.log) := by
  cases hw with
  | @launch j q t ht hp ha hq =>
    by_cases hj : j = i
    · subst hj
      obtain rfl : t = s := Option.some.inj (ht.symm.trans hs)
      refine .inr (.inl ⟨hp, ha, ?_⟩)
      simp only [launchesSince, if_true]
      omega
    · have he : indexOf (.launch j) ≠ i := hj
      exact .inl ⟨getElem?_set_ne hj, launchesSince_other he _⟩
  | @order j t e x hc ht he =>
    refine .inl ((untouched_put (Ne.symm hc) _).trans (untouched_note ?_))
    rcases he with rfl | rfl <;> exact hc
  | stop x hc ht => exact .inl ((untouched_put (Ne.symm hc) _).trans (untouched_note hc))
  | skip hc ht => exact .inl (untouched_put (Ne.symm hc) _)
  | die ho => exact .inl ⟨rfl, rfl⟩
  | @reap j p t ht hp =>
    by_cases hj : j = i
    · subst hj
      obtain rfl : t = s := Option.some.inj (ht.symm.trans hs)
      exact .inr (.inr ⟨by simp [hp], getElem?_set_hit ht, rfl⟩)
    · exact .inl ⟨getElem?_set_ne hj, rfl⟩
  | forget hf => exact .inl ⟨rfl, rfl⟩

theorem Dropped.change {c : Bytes × Policy × Int} (hc : c.2.1 = .oneshot ∨ c.2.2 ≤ 0)
    (h : Dropped i c w) (hw : Change (· ≠ i) w w') : Dropped i c w' := by
  obtain ⟨hl, s, hs, rfl, hr, hp⟩ := h
  rcases hw.service hs with hu | ⟨hn, ha, -⟩ | ⟨-, hs', hl'⟩
  · exact ⟨hu.2.trans hl, s, hu.1.trans hs, rfl, hr, hp⟩
  · rw [hp hn] at ha; cases ha
  · refine ⟨hl'.trans hl, afterDeath s, hs', configOf_afterDeath s, ?_⟩
    rcases afterDeath_cases s with ⟨ha, hr'⟩ | ⟨-, hpol, hm, -⟩
    · exact ⟨hr'.trans hr, fun _ => ha⟩
    · -- such a service has no restart left
      rcases hc with hc | hc
      · exact absurd (hpol.symm.trans hc) (by decide)
      · have : s.maxRestarts ≤ 0 := hc
        omega

theorem launched_change (h : 0 < launchesSince i w.log) (hi : i < w.svcs.length)
    (hw : Change (· ≠ i) w w') : 0 < launchesSince i w'.log := by
  rcases hw.service (getElem?_eq_getElem hi) with hu | ⟨-, -, hl⟩ | ⟨-, -, hl⟩
  · rw [hu.2]; exact h
  · exact hl
  · rw [hl]; exact h

theorem Due.change (h : Due i w) (hi : i < w.svcs.length) (hw : Change (· ≠ i) w w') : Due i w' := by
  rcases h with h | ⟨s, hs, hp⟩
  · exact .inl (launched_change h hi hw)
  · rcases hw.service hs with hu | ⟨-, -, hl⟩ | ⟨-, hs', -⟩
    · exact .inr ⟨s, hu.1.trans hs, hp⟩
    · exact .inl hl
    · exact .inr ⟨_, hs', .inl (pid_afterDeath s)⟩

/-- What changes keep of a world with a service of index `i`. -/
theorem Changes.keep {P : World → Prop} (hP : ∀ {w w'}, P w → i < w.svcs.length → Change (· ≠ i) w w' → P w')
    (hc : Changes (· ≠ i) w w') (hi : i < w.svcs.length) (h : P w) : P w' := by
  induction hc with
  | refl => exact h
  | tail hc hw ih =>
    refine hP ih ?_ hw
    have := congrArg length (Changes.configs hc)
    simp only [length_map] at this
    omega

/-- The world in which `fork` is asked when the child `p` was reaped. -/
def without (w : World) (p : Nat) : World := { w with children := w.children.filter (·.pid ≠ p) }

theorem Kept.pid_of_child (h : Kept w) {b : Bool} (hs : w.svcs[i]? = some s)
    (hc : ⟨p, i, b⟩ ∈ w.children) : s.pid = some p := by
  obtain ⟨t, ht, hp⟩ := h.owned _ hc
  obtain rfl : t = s := Option.some.inj (ht.symm.trans hs)
  exact hp

/-- A child that is dead has no owner that lives. -/
theorem Kept.ownerOf_dead (h : Kept w) (hc : ⟨p, i, true⟩ ∈ w.children) : ownerOf w p = none := by
  simp only [ownerOf, Option.map_eq_none_iff, find?_eq_none, decide_eq_true_eq, not_and]
  intro d hd hp hlive
  obtain rfl : d = ⟨p, i, true⟩ := inj_on_of_nodup_map h.nodup hd hc hp
  cases hlive

/-- When its child is reaped, an active service with a restart left is launched. -/
theorem reaped_launches (h : Kept w) (hs : w.svcs[i]? = some s)
    (hc : ⟨p, i, true⟩ ∈ w.children) (ha : (afterDeath s).active = true) {fork : Option Nat}
    (hfork : (forkResult (without w p) fork).isSome) : 0 < launchesSince i (step w (.reaped p fork)).log := by
  have hp : s.pid = some p := h.pid_of_child hs hc
  obtain ⟨hi, rfl⟩ := List.getElem?_eq_some_iff.mp hs
  have hfind : w.svcs.findIdx? (·.pid = some p) = some i := by
    rw [findIdx?_eq_some_iff_getElem]
    refine ⟨hi, by simpa using hp, fun j hj => ?_⟩
    have hne : w.svcs[j].pid ≠ some p := fun hj' =>
      absurd (h.pid_inj (getElem?_eq_getElem (by omega)) hs hj' hp) (by omega)
    simpa using hne
  obtain ⟨q, hq⟩ := Option.isSome_iff_exists.mp hfork
  have hput : ((without w p).put i (afterDeath w.svcs[i])).svcs[i]? = some (afterDeath w.svcs[i]) :=
    getElem?_set_hit hs
  have hq' : forkResult ((without w p).put i (afterDeath w.svcs[i])) fork = some q := hq
  have hstart : (step w (.reaped p fork)) = startService ((without w p).put i (afterDeath w.svcs[i])) i fork := by
    simp only [step, h.ownerOf_dead hc, reap, hfind, hs, ha, if_true]
    rfl
  rw [hstart]
  simp only [startService, hput, pid_afterDeath, Option.isSome_none, Bool.false_eq_true, if_false, hq', launchesSince,
    if_true]
  omega

/-- A service with a child is restarted by command. Its child is reaped in the end, `fork` does
its work, and no command names the service meanwhile or after. Then it is launched, in the
restart's turn or ever after, exactly if it is one to respawn and may restart once. -/
theorem restart_honoured_iff (cfgs : List Config) (bootMode cmdline : Bytes) (forks : Nat → Option Nat)
    (ins : List Input) {w : World} (hw : w = run (boot cfgs bootMode cmdline forks) ins)
    {i p : Nat} {s : Service} (hs : w.svcs[i]? = some s) (hlive : ⟨p, i, false⟩ ∈ w.children)
    {file : Bytes} (hcmd : parseCmd (readFile 192 file) = some (ascii "restart", s.name)) (forks' : Nat → Option Nat)
    {mid : List Input} (hmid : Unnamed s.name mid) {w' : World} (hw' : w' = run (step w (.usr1 file forks')) mid)
    (hdead : ⟨p, i, true⟩ ∈ w'.children) {fork : Option Nat} (hfork : (forkResult (without w' p) fork).isSome)
    {more : List Input} (hmore : Unnamed s.name more) :
    0 < launchesSince i (run (step w' (.reaped p fork)) more).log ↔ s.policy = .respawn ∧ 0 < s.maxRestarts := by
  have hinv : Inv w := hw ▸ (inv_boot cfgs bootMode cmdline forks).run ins
  obtain ⟨hs1, hl1⟩ := processCmd_restart hs (hinv.kept.pid_of_child hs hlive) hcmd forks'
  have hi1 : i < (processCmd w file forks').svcs.length := (List.getElem?_eq_some_iff.mp hs1).1
  have hinv' : Inv w' := hw' ▸ hinv.run (.usr1 file forks' :: mid)
  have hmid' : Changes (· ≠ i) (processCmd w file forks') w' := hw' ▸ run_changes hs1 hmid
  obtain ⟨s2, hs2, hcfg⟩ := exists_of_configs hmid'.configs.symm hs1
  simp only [configOf, Prod.mk.injEq] at hcfg
  have hi2 : i < w'.svcs.length := (List.getElem?_eq_some_iff.mp hs2).1
  have hreap : Changes (· ≠ i) w' (step w' (.reaped p fork)) := step_changes fun _ _ h => by cases h
  obtain ⟨s3, hs3, hcfg'⟩ := exists_of_configs hreap.configs.symm hs2
  have hi3 : i < (step w' (.reaped p fork)).svcs.length := (List.getElem?_eq_some_iff.mp hs3).1
  have hname : s3.name = s.name := (congrArg Prod.fst hcfg').trans hcfg.1
  have hrest : Changes (· ≠ i) (step w' (.reaped p fork)) (run (step w' (.reaped p fork)) more) :=
    run_changes hs3 (hname ▸ hmore)
  constructor
  · intro hl
    by_contra hbad
    have hdrop : s.policy = .oneshot ∨ s.maxRestarts ≤ 0 := by
      rw [not_and_or, not_lt] at hbad
      refine hbad.imp_left fun hp => ?_
      cases hpol : s.policy with
      | respawn => exact absurd hpol hp
      | oneshot => rfl
    have hstart : Dropped i (configOf s) (processCmd w file forks') :=
      ⟨hl1, _, hs1, rfl, rfl, fun hp => by rw [hinv.kept.pid_of_child hs hlive] at hp; cases hp⟩
    have hend := Changes.keep (fun h _ hc => Dropped.change hdrop h hc) (hmid'.trans (hreap.trans hrest)) hi1 hstart
    exact absurd hend.1 (Nat.pos_iff_ne_zero.mp hl)
  · rintro ⟨hpol, hmax⟩
    have hdue := Changes.keep Due.change hmid' hi1 (.inr ⟨_, hs1, .inr ⟨rfl, rfl⟩⟩)
    rcases hdue with hl | ⟨t, ht, hp⟩
    · exact Changes.keep launched_change (hreap.trans hrest) hi2 hl
    · obtain rfl : t = s2 := Option.some.inj (ht.symm.trans hs2)
      -- the child is still to be reaped
      have hpid := hinv'.kept.pid_of_child hs2 hdead
      obtain ⟨ha, hr⟩ := hp.resolve_left (by simp [hpid])
      have hactive : (afterDeath t).active = true := by
        simp [afterDeath, ha, hr, hcfg.2.1, hcfg.2.2, hpol, not_le.mpr hmax]
      exact Changes.keep launched_change hrest hi3 (reaped_launches hinv'.kept hs2 hdead hactive hfork)

/-- A service of the name `a` that is started with every system. -/
def sampleConfig (policy : Policy) (maxRestarts : Int) : Config := ⟨ascii "a", [], [], policy, maxRestarts⟩

def sampleBoot (policy : Policy) (maxRestarts : Int) : World :=
  boot [sampleConfig policy maxRestarts] [] [] fun _ => some 7

theorem restart_honoured_sample :
    0 < launchesSince 0 (run (step (run (step (sampleBoot .respawn 1) (.usr1 (ascii "restart a") fun _ => none))
      [.died 7]) (.reaped 7 (some 8))) []).log ↔ Policy.respawn = .respawn ∧ (0 : Int) < 1 :=
  restart_honoured_iff [sampleConfig .respawn 1] [] [] (fun _ => some 7) [] rfl
    (s := ⟨ascii "a", [], [], .respawn, 1, some 7, 0, true, false⟩) (by decide) (by decide)
    (by decide) (fun _ => none) (by intro f fs v h; simp at h) rfl (by decide) (by decide)
    (by intro f fs v h; simp at h)

/-- A oneshot service that is restarted stays without a child, whatever `fork` gives. -/
theorem restart_oneshot_dropped : ⟨7, 0, false⟩ ∈ (sampleBoot .oneshot 5).children ∧
      (run (sampleBoot .oneshot 5) [.usr1 (ascii "restart a") fun _ => some 8, .died 7, .reaped 7 (some 8),
        .retry fun _ => some 8]).children = [] ∧
      launchesSince 0 (run (sampleBoot .oneshot 5) [.usr1 (ascii "restart a") fun _ => some 8, .died 7,
        .reaped 7 (some 8), .retry fun _ => some 8]).log = 0 := by
  decide

end Lorica.Proof.Vigil
