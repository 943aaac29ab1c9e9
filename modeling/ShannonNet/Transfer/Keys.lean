import ShannonNet.Generator.Failures
import ShannonNet.Transfer.Sharing

namespace ShannonNet.Transfer.Sharing

open Library Library.Runs Library.Bitset Client InitSecrets Utils

variable {cfg : Config} {env : Env cfg}

section Index

variable {index : Index} {s t : Transfer.State cfg} {source : Source} {file : Bytes}

/-- `gather` has truncated the file of the client and has not written it yet. -/
def Writing (s : Transfer.State cfg) : Prop :=
  ∃ progress bufferVec, s.client = .gather progress (.writeSecret bufferVec)

/-- A secret that counts, with its file whole. -/
structure Kept (env : Env cfg) (source : Source) (file : Bytes) (s : Transfer.State cfg) :
    Prop where
  secret : s.slot.secret (source, env.clientNode) = some file
  valid : s.slot.valid env.clientNode = some nodeSecretValid
  whole : source = .client → ¬Writing s

theorem generator_secret (source : Source) (o : Generator.Outcome) (pc : Generator.Pc)
    (slot : Slot) :
    (pc.step source o slot).2.secret = slot.secret ∧
      (pc.step source o slot).2.valid = slot.valid := by
  rcases Generator.Pc.step_slot source o pc slot with ⟨_, h⟩ | ⟨-, h⟩ | h | ⟨-, h⟩ | ⟨-, h⟩ <;>
    rw [h] <;> exact ⟨rfl, rfl⟩

section Gathering

variable {created : Source → Option ℕ} {K : Bytes} {W : WaitingSecret cfg env.crc32c}
  (hs : Invariant env index created K W.bytes s)
  (hvalid : s.slot.valid env.clientNode = some nodeSecretValid)

include hs hvalid

theorem gathering_of_valid : ∃ loc, s.client = .gather cfg.progress loc ∧
    Gathering env.clientNode W.bytes s cfg.progress loc := by
  have hclient := hs.client
  cases hc : s.client with
  | pull loop secretA =>
    rw [hc] at hclient
    exact absurd hvalid hclient.unreported.1
  | gather progress loc =>
    rw [hc] at hclient
    obtain rfl := hclient.progress_eq
    exact ⟨loc, rfl, hclient⟩

/-- A file of a side that counts and is whole is the waiting secret. -/
theorem content_of_valid (hsecret : s.slot.secret (source, env.clientNode) = some file)
    (hwhole : source = .client → ¬Writing s) :
    file = W.bytes ∧ (source = .client →
      s.client = .gather cfg.progress .removeDir ∨ s.client = .gather cfg.progress .done) := by
  obtain ⟨loc, hc, hgathering⟩ := gathering_of_valid hs hvalid
  cases source with
  | server =>
    have hserver := (hs.serving.finished hgathering.request).1
    exact ⟨Option.some.inj (hsecret.symm.trans hserver), fun h ↦ nomatch h⟩
  | client =>
    have hgather := hgathering.gather
    cases loc with
    | readPiece num bufferVec => exact absurd hvalid hgather.2.2.2.1
    | removePiece num bufferVec => exact absurd hvalid hgather.2.2.2.1
    | crc bufferVec => exact absurd hvalid hgather.2.1
    | report bufferVec isValid pc =>
      have hreport := hgather.2.2
      cases pc with
      | createTime => exact absurd hvalid hreport.1
      | zadd => exact absurd hvalid hreport.1
      | done res => exact absurd (hsecret.symm.trans hreport.2.2) (by simp)
      | _ => exact hreport.elim
    | openSecret bufferVec => exact absurd (hsecret.symm.trans hgather.2.2) (by simp)
    | writeSecret bufferVec => exact absurd ⟨_, _, hc⟩ (hwhole rfl)
    | removeDir => exact ⟨Option.some.inj (hsecret.symm.trans hgather.2), fun _ ↦ .inl hc⟩
    | done => exact ⟨Option.some.inj (hsecret.symm.trans hgather.2), fun _ ↦ .inr hc⟩

/-- Once a secret counts, only `gather` goes on. -/
theorem step_of_valid {a : Transfer.Act cfg} (h : s.step env index a = some t) :
    (t.slot.secret = s.slot.secret ∧ t.slot.valid = s.slot.valid ∧ t.client = s.client) ∨
    ∃ loc loc' slot, s.client = .gather cfg.progress loc ∧
      GatherAt cfg env.clientNode W.bytes slot loc' ∧ GatherFrame env.clientNode s.slot slot ∧
      loc.step cfg env.crc32c env.dir env.clientNode cfg.progress s.slot = some (loc', slot) ∧
      t = { s.withSlot slot with client := .gather cfg.progress loc' } := by
  obtain ⟨loc, hc, hgathering⟩ := gathering_of_valid hs hvalid
  cases a with
  | generator src o =>
    rw [Transfer.State.step] at h
    split_ifs at h
    cases h
    obtain ⟨hsecret, hvalid'⟩ :=
      generator_secret src o (s.generator src) s.slot
    exact .inl ⟨hsecret, hvalid', rfl⟩
  | request p =>
    obtain ⟨flag, hp⟩ := hgathering.process p
    rw [Transfer.State.step, hp] at h
    cases h
  | process p =>
    obtain ⟨flag, hp⟩ := hgathering.process p
    rw [Transfer.State.step, hp] at h
    cases h
  | client =>
    cases State.stepClient_cases env h with
    | construct hc' => cases hc.symm.trans hc'
    | finish hc' => cases hc.symm.trans hc'
    | pull hc' => cases hc.symm.trans hc'
    | @gather progress loc' loc'' slot hc' hstep =>
      cases hc.symm.trans hc'
      obtain ⟨hgather, hframe⟩ :=
        gather_step W hgathering.gather hs.serving.time env.dir_clientNode hstep
      exact .inr ⟨loc, loc'', slot, hc, hgather, hframe, hstep, rfl⟩

theorem valid_of_step {a : Transfer.Act cfg} (h : s.step env index a = some t) :
    t.slot.valid env.clientNode = some nodeSecretValid := by
  rcases step_of_valid hs hvalid h with ⟨-, hvalid', -⟩ | ⟨_, _, slot, -, -, hframe, -, rfl⟩
  · exact (congrFun hvalid' _).trans hvalid
  · exact hframe.valid.elim (fun heq ↦ heq.trans hvalid) id

theorem isSome_of_step {a : Transfer.Act cfg} (h : s.step env index a = some t)
    (hsome : (s.slot.secret (source, env.clientNode)).isSome) :
    (t.slot.secret (source, env.clientNode)).isSome := by
  rcases step_of_valid hs hvalid h with
    ⟨hsecret, -, -⟩ | ⟨loc, loc', slot, hc, hgather, hframe, hstep, rfl⟩
  · rwa [hsecret]
  · cases source with
    | server =>
      change (slot.secret (.server, env.clientNode)).isSome
      rwa [hframe.secret]
    | client =>
      obtain ⟨loc₀, hc₀, hgathering⟩ := gathering_of_valid hs hvalid
      cases hc.symm.trans hc₀
      have hat := hgathering.gather
      cases loc with
      | writeSecret bufferVec =>
        cases hstep
        have hcopy : _ = some W.bytes := hgather.2
        exact Option.isSome_iff_exists.mpr ⟨_, hcopy⟩
      | removeDir =>
        cases hstep
        exact hsome
      | done => cases hstep
      | _ =>
        have hwhole : ¬Writing s := by
          rintro ⟨progress, bufferVec, hw⟩
          cases hc.symm.trans hw
        obtain ⟨file, hfile⟩ := Option.isSome_iff_exists.mp hsome
        rcases (content_of_valid hs hvalid hfile fun _ ↦ hwhole).2 rfl with hc' | hc' <;>
          cases hc.symm.trans hc'

end Gathering

theorem seeded_slot {a : Transfer.Act cfg} (hs : Seeded env s) (h : s.step env index a = some t) :
    t.slot = s.slot := by
  cases a with
  | generator source o =>
    rw [Transfer.State.step] at h
    split_ifs at h with hdone
    rw [(hs.generator source).resolve_right hdone, Generator.Pc.step, if_pos (hs.time source)] at h
    cases h
    rfl
  | request p =>
    rw [(idle_step (hs.process p)).1] at h
    cases h
  | process p =>
    rw [(idle_step (hs.process p)).2] at h
    cases h
  | client =>
    obtain ⟨loop, loop', -, -, rfl⟩ := stalled_client hs.client h
    rfl

theorem not_writing_of_stalled (h : Stalled s.client) : ¬Writing s := by
  rintro ⟨progress, bufferVec, hc⟩
  rw [hc] at h
  exact h

/-- Both sides have one file for a secret that counts. -/
theorem Kept.unique (hs : Phase env index s) {other : Source} {file' : Bytes}
    (h : Kept env source file s) (h' : Kept env other file' s) : file = file' := by
  cases hs with
  | seeded hs =>
    obtain ⟨file₀, hfile⟩ := hs.file
    exact (Option.some.inj (h.secret.symm.trans (hfile source))).trans
      (Option.some.inj (h'.secret.symm.trans (hfile other))).symm
  | quiet hs => exact absurd (hs.valid.symm.trans h.valid) (by simp)
  | transfer W hs =>
    exact (content_of_valid hs h.valid h.secret h.whole).1.trans
      (content_of_valid hs h'.valid h'.secret h'.whole).1.symm

theorem Kept.step {a : Transfer.Act cfg} (h : Kept env source file s) (hs : Phase env index s)
    (hstep : s.step env index a = some t) : Kept env source file t := by
  cases hs with
  | seeded hs =>
    have hslot := seeded_slot hs hstep
    exact ⟨hslot ▸ h.secret, hslot ▸ h.valid, fun _ ↦ not_writing_of_stalled (hs.step hstep).client⟩
  | quiet hs => exact absurd (hs.valid.symm.trans h.valid) (by simp)
  | transfer W hs =>
    have hvalid := valid_of_step hs h.valid hstep
    rcases step_of_valid hs h.valid hstep with
      ⟨hsecret, -, hclient⟩ | ⟨loc, loc', slot, hc, -, hframe, hgather, rfl⟩
    · refine ⟨(congrFun hsecret _).trans h.secret, hvalid, fun hsource ↦ ?_⟩
      rintro ⟨progress, bufferVec, hw⟩
      exact h.whole hsource ⟨progress, bufferVec, hclient ▸ hw⟩
    · cases source with
      | server => exact ⟨hframe.secret.trans h.secret, hvalid, fun hsource ↦ nomatch hsource⟩
      | client =>
        rcases (content_of_valid hs h.valid h.secret h.whole).2 rfl with hc' | hc'
        · cases hc.symm.trans hc'
          cases hgather
          refine ⟨h.secret, hvalid, fun _ ↦ ?_⟩
          rintro ⟨progress, bufferVec, hw⟩
          cases hw
        · cases hc.symm.trans hc'
          cases hgather

/-- What `readFileSize` looks at stays once it counts. -/
theorem counts_of_step {a : Transfer.Act cfg} (hs : Phase env index s)
    (hstep : s.step env index a = some t)
    (hsome : (s.slot.secret (source, env.clientNode)).isSome)
    (hvalid : s.slot.valid env.clientNode = some nodeSecretValid) :
    (t.slot.secret (source, env.clientNode)).isSome ∧
      t.slot.valid env.clientNode = some nodeSecretValid := by
  cases hs with
  | seeded hs =>
    rw [seeded_slot hs hstep]
    exact ⟨hsome, hvalid⟩
  | quiet hs => exact absurd (hs.valid.symm.trans hvalid) (by simp)
  | transfer W hs => exact ⟨isSome_of_step hs hvalid hstep hsome, valid_of_step hs hvalid hstep⟩

theorem generator_running (source : Source) (o : Generator.Outcome) (pc : Generator.Pc)
    (slot : Slot) : (pc.step source o slot).2.running = slot.running ∨
      pc = .saveRunning ∧ ∃ key, o.running = some key ∧
        (pc.step source o slot).2.running = Function.update slot.running source (some key) := by
  cases pc with
  | createTime =>
    left
    simp only [Generator.Pc.step]
    split_ifs <;> rfl
  | saveRunning =>
    cases hkey : o.running with
    | none => exact .inl (by simp only [Generator.Pc.step, hkey])
    | some key => exact .inr ⟨rfl, key, rfl, by simp only [Generator.Pc.step, hkey]⟩
  | _ => exact .inl rfl

/-- A running key appears when the generator of its side saves it. -/
theorem running_of_step {a : Transfer.Act cfg} (hs : Phase env index s) (hreg : Regular env s a)
    (hstep : s.step env index a = some t) {key : Bytes}
    (hkey : t.slot.running source = some key) : s.slot.running source = some key ∨
      ∃ o, a = .generator source o ∧ s.generator source = .saveRunning ∧ o.running = some key := by
  cases hs with
  | seeded hs => exact .inl (seeded_slot hs hstep ▸ hkey)
  | transfer W hs =>
    have ht := invariant_step hs hreg.freshCount hstep
    cases source with
    | server => exact .inl (hs.serving.running.trans (ht.serving.running.symm.trans hkey))
    | client => exact .inl (hs.running.trans (ht.running.symm.trans hkey))
  | quiet hs hnone =>
    cases a with
    | request p =>
      rw [(idle_step (hs.process p)).1] at hstep
      cases hstep
    | process p =>
      rw [(idle_step (hs.process p)).2] at hstep
      cases hstep
    | client =>
      obtain ⟨-, hslot⟩ := quiet_client hs hnone hstep
      exact .inl (hslot ▸ hkey)
    | generator src o =>
      rw [Transfer.State.step] at hstep
      split_ifs at hstep
      cases hstep
      rcases generator_running src o (s.generator src) s.slot with hsame | ⟨hpc, key', ho, hnew⟩
      · exact .inl ((congrFun hsame source).symm.trans hkey)
      · have hkey := (congrFun hnew source).symm.trans hkey
        by_cases hsource : source = src
        · subst hsource
          rw [Function.update_self] at hkey
          obtain rfl := Option.some.inj hkey
          exact .inr ⟨o, rfl, hpc, ho⟩
        · rw [Function.update_of_ne hsource] at hkey
          exact .inl hkey

end Index

section Run

open Generator (Rand)

variable (env : Env cfg) (dir : Source → Str) (rand : Index → Rand) (fuel : ℕ)

/-- The running key a side makes of the files its reading has accepted. Both messages of an index
carry one `random_num`, so both sides draw from one stream. -/
def keyOf (s : State cfg) (index : Index) (source : Source) : Option Bytes :=
  let names := (s.reading index source).accepted
  if names = [] then none
  else
    (Generator.selectFiles cfg (rand index) fuel names).bind fun sel ↦
      (Generator.generateKey cfg Generator.Opens.all
          (sel.1.map fun name ↦ (s.transfer name).slot.secret (source, env.clientNode))
          (Generator.generateRandom cfg (rand index) sel.2 sel.1.length)
          Generator.RunDir.empty).bind fun r ↦ r.1.bin

/-- A running key is made of whole files, the waiting secret is written whole, and each side
initialises its counter before it is used. -/
def Made (s : State cfg) : Act cfg → Prop
  | .transfer index (.generator source o) =>
    match (s.transfer index).generator source with
    | .saveRunning => ∀ key, o.running = some key →
      keyOf env rand fuel s index source = some key ∧
        (source = .client →
          ∀ name ∈ (s.reading index source).accepted, ¬Writing (s.transfer name))
    | .saveWaiting => ∃ W : WaitingSecret cfg env.crc32c, o.waiting = some W.bytes
    | .zaddCount => (s.transfer index).slot.count source = none
    | _ => True
  | _ => True

/-- `readdir` returns the same files in the same order on both sides. -/
def Ordered (s : State cfg) : Act cfg → Prop
  | .readEnd index source => ∀ other, (s.reading index other).finished = true →
    (∀ name, name ∈ (s.reading index source).accepted ↔
      name ∈ (s.reading index other).accepted) →
    (s.reading index source).accepted = (s.reading index other).accepted
  | _ => True

structure Undisturbed (s : State cfg) (a : Act cfg) : Prop where
  listed : Listed env s a
  settled : Settled env dir s a
  ordered : Ordered s a
  made : Made env rand fuel s a

structure Sound (s : State cfg) : Prop where
  phase : ∀ index, Phase env index (s.transfer index)
  coherent : ∀ index, Coherent (sees env dir s.transfer) (s.reading index)
  seen : ∀ index source, ∀ name ∈ (s.reading index source).accepted,
    sees env dir s.transfer source name = true
  ordered : ∀ index source other, (s.reading index source).finished = true →
    (s.reading index other).finished = true →
    (s.reading index source).accepted = (s.reading index other).accepted
  key : ∀ index source key, (s.transfer index).slot.running source = some key →
    (s.reading index source).finished = true ∧ keyOf env rand fuel s index source = some key ∧
      ∀ name ∈ (s.reading index source).accepted, ∃ file, Kept env source file (s.transfer name)

variable {env dir rand fuel} {s t : State cfg} {index : Index} {source other : Source}

variable (rand fuel) in
theorem keyOf_congr
    (haccepted : (t.reading index other).accepted = (s.reading index source).accepted)
    (hsecret : ∀ name ∈ (s.reading index source).accepted,
      (t.transfer name).slot.secret (other, env.clientNode) =
        (s.transfer name).slot.secret (source, env.clientNode)) :
    keyOf env rand fuel t index other = keyOf env rand fuel s index source := by
  unfold keyOf
  rw [haccepted]
  dsimp only
  split_ifs
  · rfl
  · apply Option.bind_congr
    intro sel hsel
    rw [List.map_congr_left fun name hname ↦
      hsecret name (Generator.mem_of_mem_selectFiles hsel hname)]

theorem valid_of_sees {name : Index} (h : sees env dir s.transfer source name = true) :
    ((s.transfer name).slot.secret (source, env.clientNode)).isSome ∧
      (s.transfer name).slot.valid env.clientNode = some nodeSecretValid := by
  obtain ⟨hlisted, hvalid⟩ := sees_eq_true_iff.mp h
  refine ⟨(Bool.and_eq_true_iff.mp hlisted).2, ?_⟩
  cases hscore : (s.transfer name).slot.valid env.clientNode with
  | none =>
    rw [hscore] at hvalid
    cases hvalid
  | some score =>
    rw [hscore] at hvalid
    exact congrArg some hvalid

theorem sees_of_step {name : Index} {u : Transfer.State cfg} {a : Transfer.Act cfg}
    (hs : Phase env name (s.transfer name)) (hstep : (s.transfer name).step env name a = some u)
    (h : sees env dir s.transfer source name = true) :
    sees env dir (Function.update s.transfer name u) source name = true := by
  obtain ⟨hsome, hvalid⟩ := valid_of_sees h
  obtain ⟨hsome', hvalid'⟩ := counts_of_step hs hstep hsome hvalid
  have hlisted := (sees_eq_true_iff.mp h).1
  rw [listed, Bool.and_eq_true] at hlisted
  rw [sees_eq_true_iff, listed, Function.update_self, Bool.and_eq_true]
  exact ⟨⟨hlisted.1, hsome'⟩, by rw [hvalid', Option.getD_some]⟩

/-- Both sides make one running key of an index. -/
theorem Sound.keys_eq (hs : Sound env dir rand fuel s) {key key' : Bytes}
    (hkey : (s.transfer index).slot.running source = some key)
    (hother : (s.reading index other).finished = true)
    (hkey' : keyOf env rand fuel s index other = some key')
    (hwhole : other = .client →
      ∀ name ∈ (s.reading index other).accepted, ¬Writing (s.transfer name)) : key' = key := by
  obtain ⟨hfinished, hmade, hkept⟩ := hs.key index source key hkey
  have haccepted := hs.ordered index other source hother hfinished
  have hsame := keyOf_congr rand fuel haccepted fun name hname ↦ by
    obtain ⟨file, hfile⟩ := hkept name hname
    rw [← haccepted] at hname
    obtain ⟨hsome, hvalid⟩ := valid_of_sees (hs.seen index other name hname)
    obtain ⟨file', hfile'⟩ := Option.isSome_iff_exists.mp hsome
    rw [hfile', hfile.secret,
      hfile.unique (hs.phase name) ⟨hfile', hvalid, fun hc ↦ hwhole hc name hname⟩]
  exact Option.some.inj (hkey'.symm.trans (hsame.trans hmade))

theorem Sound.regular {a : Transfer.Act cfg} (hs : Sound env dir rand fuel s)
    (hmade : Made env rand fuel s (.transfer index a)) (hwaits : s.waits index a = false) :
    Regular env (s.transfer index) a := by
  cases a with
  | generator source o =>
    rw [Regular]
    rw [Made] at hmade
    cases hpc : (s.transfer index).generator source with
    | saveRunning =>
      rw [hpc] at hmade
      intro other key hkey key' ho
      have hfinished : (s.reading index source).finished = true := by
        simpa [State.waits, hpc, ho] using hwaits
      obtain ⟨hkey', hwhole⟩ := hmade key' ho
      exact hs.keys_eq hkey hfinished hkey' hwhole
    | saveWaiting =>
      rw [hpc] at hmade
      exact hmade
    | zaddCount =>
      rw [hpc] at hmade
      exact hmade
    | _ => trivial
  | _ => trivial

theorem sound_setReading {r : Scan Index} (hs : Sound env dir rand fuel s)
    (hreads : s.reads index source = true)
    (hcoherent : ∀ i, Coherent (sees env dir s.transfer) ((s.setReading index source r).reading i))
    (hseen : ∀ name ∈ r.accepted, sees env dir s.transfer source name = true)
    (hordered : r.finished = true → ∀ other ≠ source, (s.reading index other).finished = true →
      r.accepted = (s.reading index other).accepted) :
    Sound env dir rand fuel (s.setReading index source r) := by
  have hcases (i : Index) (src : Source) :
      i = index ∧ src = source ∧ (s.setReading index source r).reading i src = r ∨
        ¬(i = index ∧ src = source) ∧
          (s.setReading index source r).reading i src = s.reading i src := by
    by_cases hi : i = index
    · subst hi
      by_cases hsrc : src = source
      · subst hsrc
        exact .inl ⟨rfl, rfl, setReading_reading r⟩
      · exact .inr ⟨fun h ↦ hsrc h.2, by simp [State.setReading, hsrc]⟩
    · exact .inr ⟨fun h ↦ hi h.1, by simp [State.setReading, hi]⟩
  have hnot : (s.reading index source).finished = false := by
    simpa using (Bool.and_eq_true_iff.mp hreads).2
  refine ⟨hs.phase, hcoherent, ?_, ?_, ?_⟩
  · intro i src name hname
    rcases hcases i src with ⟨rfl, rfl, heq⟩ | ⟨-, heq⟩
    · rw [heq] at hname
      exact hseen name hname
    · rw [heq] at hname
      exact hs.seen i src name hname
  · intro i src other hsrc hother
    rcases hcases i src with ⟨rfl, rfl, heq⟩ | ⟨hne, heq⟩ <;>
      rcases hcases i other with ⟨hi, rfl, heq'⟩ | ⟨hne', heq'⟩
    · rw [heq]
    · rw [heq] at hsrc
      rw [heq'] at hother
      rw [heq, heq']
      exact hordered hsrc other (fun h ↦ hne' ⟨rfl, h⟩) hother
    · subst hi
      rw [heq] at hsrc
      rw [heq'] at hother
      rw [heq, heq']
      exact (hordered hother src (fun h ↦ hne ⟨rfl, h⟩) hsrc).symm
    · rw [heq] at hsrc ⊢
      rw [heq'] at hother ⊢
      exact hs.ordered i src other hsrc hother
  · intro i src key hkey
    obtain ⟨hfinished, hmade, hkept⟩ := hs.key i src key hkey
    rcases hcases i src with ⟨rfl, rfl, -⟩ | ⟨-, heq⟩
    · rw [hnot] at hfinished
      cases hfinished
    · refine ⟨by rwa [heq], ?_, by rwa [heq]⟩
      rw [← hmade]
      exact keyOf_congr rand fuel (by rw [heq]) fun _ _ ↦ rfl

/-- A step that leaves a running key has found it there or has made it from what it has read. -/
theorem Sound.key_of_step {name : Index} {a : Transfer.Act cfg} {u : Transfer.State cfg}
    (hs : Sound env dir rand fuel s) (ha : Undisturbed env dir rand fuel s (.transfer name a))
    (hwaits : s.waits name a = false) (hu : (s.transfer name).step env name a = some u)
    {key : Bytes}
    (hkey : (Function.update s.transfer name u index).slot.running source = some key) :
    (s.reading index source).finished = true ∧ keyOf env rand fuel s index source = some key ∧
      ∀ x ∈ (s.reading index source).accepted, ∃ file, Kept env source file (s.transfer x) := by
  by_cases hindex : index = name
  · subst hindex
    rw [Function.update_self] at hkey
    rcases running_of_step (hs.phase index) (hs.regular ha.made hwaits) hu hkey with
      hkey | ⟨o, rfl, hpc, ho⟩
    · exact hs.key index source key hkey
    · have hmade := ha.made
      rw [Made, hpc] at hmade
      obtain ⟨hmade, hwhole⟩ := hmade key ho
      refine ⟨by simpa [State.waits, hpc, ho] using hwaits, hmade, ?_⟩
      intro x hx
      obtain ⟨hsome, hvalid⟩ := valid_of_sees (hs.seen index source x hx)
      obtain ⟨file, hfile⟩ := Option.isSome_iff_exists.mp hsome
      exact ⟨file, hfile, hvalid, fun hc ↦ hwhole hc x hx⟩
  · rw [Function.update_of_ne hindex] at hkey
    exact hs.key index source key hkey

theorem sound_transfer {name : Index} {a : Transfer.Act cfg} {u : Transfer.State cfg}
    (hs : Sound env dir rand fuel s) (ha : Undisturbed env dir rand fuel s (.transfer name a))
    (hwaits : s.waits name a = false) (hu : (s.transfer name).step env name a = some u)
    (hcoherent : ∀ i, Coherent (sees env dir (Function.update s.transfer name u)) (s.reading i)) :
    Sound env dir rand fuel { s with transfer := Function.update s.transfer name u } := by
  have hsees (source : Source) (x : Index) (hx : sees env dir s.transfer source x = true) :
      sees env dir (Function.update s.transfer name u) source x = true := by
    by_cases hne : x = name
    · subst hne
      exact sees_of_step (hs.phase x) hu hx
    · rwa [sees_update_of_ne hne]
  have hkept {source : Source} {x : Index} {file : Bytes}
      (hx : Kept env source file (s.transfer x)) :
      Kept env source file (Function.update s.transfer name u x) := by
    by_cases hne : x = name
    · subst hne
      rw [Function.update_self]
      exact hx.step (hs.phase x) hu
    · rwa [Function.update_of_ne hne]
  refine ⟨?_, hcoherent, fun i src x hx ↦ hsees src x (hs.seen i src x hx), hs.ordered, ?_⟩
  · intro i
    dsimp only
    by_cases hi : i = name
    · subst hi
      rw [Function.update_self]
      exact (hs.phase i).step (hs.regular ha.made hwaits) hu
    · rw [Function.update_of_ne hi]
      exact hs.phase i
  · intro i src key hkey
    obtain ⟨hfinished, hmade, hfiles⟩ := hs.key_of_step ha hwaits hu hkey
    refine ⟨hfinished, ?_, ?_⟩
    · rw [← hmade]
      refine keyOf_congr rand fuel rfl fun x hx ↦ ?_
      obtain ⟨file, hfile⟩ := hfiles x hx
      exact (hkept hfile).secret.trans hfile.secret.symm
    · intro x hx
      obtain ⟨file, hfile⟩ := hfiles x hx
      exact ⟨file, hkept hfile⟩

theorem sound_step {a : Act cfg} (hs : Sound env dir rand fuel s)
    (ha : Undisturbed env dir rand fuel s a) (h : s.step env dir a = some t) :
    Sound env dir rand fuel t := by
  have hcoherent := coherent_step hs.coherent ha.listed ha.settled h
  cases a with
  | readEntry index source name =>
    simp only [State.step] at h
    split_ifs at h with hreads
    cases h
    obtain ⟨hreads, -⟩ := Bool.and_eq_true_iff.mp hreads
    refine sound_setReading hs hreads hcoherent ?_ ?_
    · intro name' hname
      rcases Scan.mem_visit.mp hname with hname | ⟨rfl, hsees⟩
      · exact hs.seen index source name' hname
      · exact hsees
    · intro hfinished
      have hnot := (Bool.and_eq_true_iff.mp hreads).2
      rw [show (s.reading index source).finished = true from hfinished] at hnot
      cases hnot
  | readEnd index source =>
    have hsame := fun other ↦ (hcoherent index).eq_of_finished (k := source) (l := other)
    simp only [State.step] at h
    split_ifs at h with hreads
    cases h
    refine sound_setReading hs hreads hcoherent (hs.seen index source) fun _ other hne hother ↦ ?_
    have hreading : (s.setReading index source (s.reading index source).finish).reading index
        other = s.reading index other := by
      simp [State.setReading, hne]
    refine ha.ordered other hother fun name ↦ ?_
    have hname := hsame other (by rw [setReading_reading]; rfl) (by rw [hreading, hother]) name
    rwa [setReading_reading, hreading] at hname
  | transfer name a =>
    simp only [State.step] at h
    split_ifs at h with hwaits
    obtain ⟨u, hu, rfl⟩ := Option.map_eq_some_iff.mp h
    exact sound_transfer hs ha (Bool.eq_false_iff.mpr hwaits) hu hcoherent

theorem sound_start (timeStamp : ℕ) (file : Index → Bytes) :
    Sound env dir rand fuel (State.start (init env timeStamp file)) where
  phase := init_phase timeStamp file
  coherent _ := .start
  seen _ _ _ hname := nomatch hname
  ordered _ _ _ hfinished := nomatch hfinished
  key index source key hkey := by
    change (init env timeStamp file index).slot.running source = some key at hkey
    rw [init, initSlot] at hkey
    split_ifs at hkey <;> cases hkey

/-- In a run from `init` whose readings find the same files, the two sides run every index on one
key, a secret that counts is one file, and a client that is through has the secret of the server. -/
theorem keys_agree (env : Env cfg) (dir : Source → Str) (rand : Index → Rand) (fuel : ℕ)
    {timeStamp : ℕ} {file : Index → Bytes} {t : State cfg}
    (hrun : Reachable (State.step env dir) (Undisturbed env dir rand fuel)
      (State.start (init env timeStamp file)) t) (index : Index) :
    (∀ source other key key', (t.transfer index).slot.running source = some key →
      (t.transfer index).slot.running other = some key' → key = key') ∧
    Agreement env.clientNode (t.transfer index) ∧
    ∀ progress, (t.transfer index).client = .gather progress .done →
      (t.transfer index).slot.valid env.clientNode = some nodeSecretValid ∧
      ∃ W : WaitingSecret cfg env.crc32c, ∀ source,
        (t.transfer index).slot.secret (source, env.clientNode) = some W.bytes := by
  have ht : Sound env dir rand fuel t :=
    hrun.invariant (sound_start timeStamp file) fun _ _ _ hs ha h ↦ sound_step hs ha h
  refine ⟨?_, (ht.phase index).agreement, ?_⟩
  · intro source other key key' hkey hkey'
    obtain ⟨hfinished, hmade, hkept⟩ := ht.key index other key' hkey'
    refine (ht.keys_eq hkey hfinished hmade fun hc name hname ↦ ?_).symm
    obtain ⟨file, hfile⟩ := hkept name hname
    exact hfile.whole hc
  · intro progress hclient
    cases ht.phase index with
    | seeded hs => exact absurd hs.client (by rw [hclient]; exact id)
    | quiet hs => exact absurd hs.client (by rw [hclient]; exact id)
    | transfer W hs =>
      have hgathering := hs.client
      rw [hclient] at hgathering
      obtain ⟨hvalid, hcopy⟩ : Reported _ _ _ := hgathering.gather
      refine ⟨hvalid, W, fun source ↦ ?_⟩
      cases source with
      | server => exact (hs.serving.finished hgathering.request).1
      | client => exact hcopy

end Run

section Example

variable {s : State Config.release} {b : Transfer.State Config.release} {source : Source}

theorem exists_keyOf (env : Env cfg) (dir : Source → Str) (rand : Index → Generator.Rand)
    (fuel : ℕ) (s : State cfg) (index : Index) (source : Source)
    (hne : (s.reading index source).accepted ≠ [])
    (hlen : (s.reading index source).accepted.length ≤ cfg.fileNum)
    (hseen : ∀ name ∈ (s.reading index source).accepted,
      sees env dir s.transfer source name = true) :
    ∃ key, keyOf env rand fuel s index source = some key := by
  have hsecret : (s.reading index source).accepted.map
      (fun name ↦ (s.transfer name).slot.secret (source, env.clientNode)) =
      ((s.reading index source).accepted.map fun name ↦
        ((s.transfer name).slot.secret (source, env.clientNode)).getD []).map some := by
    rw [List.map_map]
    apply List.map_congr_left
    intro name hname
    obtain ⟨file, hfile⟩ := Option.isSome_iff_exists.mp (valid_of_sees (hseen name hname)).1
    simp [hfile]
  obtain ⟨d, hd, hbin⟩ := Generator.generateKey_all cfg
    ((s.reading index source).accepted.map fun name ↦
      ((s.transfer name).slot.secret (source, env.clientNode)).getD [])
    (Generator.generateRandom cfg (rand index) 0 (s.reading index source).accepted.length)
    Generator.RunDir.empty (by simpa using hne)
    (fun f hf t ht ↦ Generator.generateRandom_row cfg _ _ (by simpa using hf) ht)
  have hkey : keyOf env rand fuel s index source = d.bin := by
    simp only [keyOf, if_neg hne, Generator.selectFiles, if_neg (Nat.not_lt.mpr hlen),
      Option.bind_some, hsecret, hd]
  exact ⟨_, hkey.trans hbin⟩

theorem sees_update_of_secret {s : Index → Transfer.State cfg} {index : Index}
    {t : Transfer.State cfg} (hsecret : t.slot.secret = (s index).slot.secret)
    (hvalid : t.slot.valid = (s index).slot.valid) (source : Source) (name : Index) :
    sees env dir (Function.update s index t) source name = sees env dir s source name := by
  by_cases hname : name = index
  · subst hname
    rw [Bool.eq_iff_iff, sees_eq_true_iff, sees_eq_true_iff, listed, listed, Function.update_self,
      hsecret, hvalid]
  · exact sees_update_of_ne hname source

theorem settled_generator {s : State cfg} (index : Index) (source : Source)
    (o : Generator.Outcome) :
    Settled env dir s (.transfer index (.generator source o)) := by
  intro t ht other hchange
  rw [Transfer.State.step] at ht
  split_ifs at ht
  cases ht
  obtain ⟨hsecret, hvalid⟩ :=
    generator_secret source o ((s.transfer index).generator source) (s.transfer index).slot
  refine absurd ?_ hchange
  rw [sees_update_of_secret]
  · exact hsecret
  · exact hvalid

/-- No file of the index is there. -/
def Bare (b : Transfer.State Config.release) : Prop :=
  b.slot.secret = Slot.empty.secret ∧ b.slot.valid = Slot.empty.valid

theorem sees_release (hb : Bare b) (source : Source) (name : Index) :
    sees releaseEnv releaseDir (Function.update releaseInit otherIndex b) source name =
      sees releaseEnv releaseDir releaseInit .server name := by
  have hfresh : releaseInit otherIndex = .fresh _ := init_of_not (by decide)
  have hsame := releaseInit_sees (b := .fresh _) rfl source .server name
  rw [← hfresh, Function.update_eq_self] at hsame
  rw [sees_update_of_secret (by rw [hfresh]; exact hb.1) (by rw [hfresh]; exact hb.2), hsame]

/-- The finished reading of the directory that `init` leaves. -/
def releaseScan : Scan Index :=
  (Scan.visitAll (sees releaseEnv releaseDir releaseInit .server) names .start).finish

section Steps

variable (rand : Index → Generator.Rand) (fuel : ℕ)

/-- The turn of the generator over the message of a side, as far as its directory is read. -/
def scanTurn (s : State Config.release) (b : Transfer.State Config.release) (source : Source) :
    State Config.release :=
  { s with transfer := Function.update releaseInit otherIndex (turned b source) }.setReading
    otherIndex source releaseScan

theorem reachable_scanTurn (source : Source)
    (hs : s.transfer = Function.update releaseInit otherIndex b) (hb : b.slot = Slot.empty)
    (hpc : b.generator source = .createTime)
    (hr : s.reading otherIndex source = .start)
    (hother : ∀ other ≠ source, (s.reading otherIndex other).finished = true →
      s.reading otherIndex other = releaseScan) :
    Reachable (State.step releaseEnv releaseDir) (Undisturbed releaseEnv releaseDir rand fuel) s
      (scanTurn s b source) := by
  have hb' : s.transfer otherIndex = b := by rw [hs, Function.update_self]
  have hbare : Bare (turned b source) := by
    change Bare b
    rw [Bare, hb]
    exact ⟨rfl, rfl⟩
  let s' : State Config.release :=
    { s with transfer := Function.update releaseInit otherIndex (turned b source) }
  have hstep : s.step releaseEnv releaseDir (generate source) = some s' := by
    have hwaits : s.waits otherIndex
        (.generator source ⟨some releaseKey, some releaseSecret.bytes, 1700000000⟩) = false := by
      simp [State.waits, hb', hpc]
    have hturned := turned_step (s := s) (by rw [hb']; exact hpc) (by rw [hb', hb]; rfl)
    rw [generate, State.step, hwaits, if_neg (by simp), hturned, hb', Option.map_some, hs,
      Function.update_idem]
  have hreads : s'.reads otherIndex source = true := by
    simp [State.reads, s', hr, Scan.start, turned]
  have hsees (source' : Source) (name : Index) := sees_release hbare source' name
  have hentries := reachable_entries releaseEnv releaseDir names_nodup
    (P := Undisturbed releaseEnv releaseDir rand fuel) (s := s')
    (by rw [hr]; exact fun _ _ ↦ List.not_mem_nil) hreads ?_
  · rw [show s'.reading otherIndex source = .start from hr,
      show sees releaseEnv releaseDir s'.transfer source =
        sees releaseEnv releaseDir releaseInit .server from funext (hsees source)] at hentries
    refine ((Reachable.next .start ?_ hstep).trans hentries).next
      (a := .readEnd otherIndex source) ?_ ?_
    · refine ⟨trivial, settled_generator _ _ _, trivial, ?_⟩
      simp only [generate, Made, hb', hpc]
    · refine ⟨?_, ?_, ?_, trivial⟩
      · intro name hname
        rw [setReading_reading, Scan.mem_visitAll_visited]
        exact .inl (((releaseInit_covers.mono initSecrets_subset).update (by decide) _)
          source name hname)
      · intro other name _ _
        exact (hsees source name).trans (hsees other name).symm
      · intro other hfinished _
        by_cases hne : other = source
        · rw [hne]
        · have hreading : ∀ r, (s'.setReading otherIndex source r).reading otherIndex other =
              s.reading otherIndex other := by simp [State.setReading, hne, s']
          rw [hreading] at hfinished ⊢
          rw [setReading_reading, hother other hne hfinished]
          rfl
    · have hreads' : (s'.setReading otherIndex source (Scan.visitAll
          (sees releaseEnv releaseDir releaseInit .server) names .start)).reads otherIndex
            source = true := by
        rw [State.reads, setReading_reading, Scan.visitAll_finished]
        simp [State.setReading, Scan.start, s', turned]
      simp only [State.step, hreads', if_true, setReading_reading, setReading_setReading]
      rfl
  · intro u name hu
    refine ⟨trivial, fun other _ ↦ ?_, trivial, trivial⟩
    rw [hu]
    exact (hsees source name).trans (hsees other name).symm

/-- The generator of a side saves its running key. -/
def saveTurn (s : State cfg) (index : Index) (source : Source) (key : Bytes) : State cfg :=
  let b := s.transfer index
  let slot := { b.slot with running := Function.update b.slot.running source (some key) }
  let pc := if source = .server then Generator.Pc.saveWaiting else .zaddTime
  let b := { b.withSlot slot with generator := Function.update b.generator source pc }
  { s with transfer := Function.update s.transfer index b }

theorem reachable_saveTurn {s : State cfg} {index : Index} {source : Source} {key : Bytes}
    (hpc : (s.transfer index).generator source = .saveRunning)
    (hfinished : (s.reading index source).finished = true)
    (hkey : keyOf env rand fuel s index source = some key)
    (hwhole : ∀ name, ¬Writing (s.transfer name)) :
    Reachable (State.step env dir) (Undisturbed env dir rand fuel) s
      (saveTurn s index source key) := by
  let a : Act cfg := .transfer index (.generator source ⟨some key, none, 0⟩)
  have hstep : s.step env dir a = some (saveTurn s index source key) := by
    have hwaits : s.waits index (.generator source ⟨some key, none, 0⟩) = false := by
      simp [State.waits, hfinished]
    rw [State.step, hwaits, if_neg (by simp), Transfer.State.step, hpc, if_neg (by simp)]
    rfl
  refine Reachable.next (a := a) .start ⟨trivial, settled_generator _ _ _, trivial, ?_⟩ hstep
  simp only [a, Made, hpc]
  intro key' ho
  cases ho
  exact ⟨hkey, fun _ name _ ↦ hwhole name⟩

theorem sees_saveTurn {s : State cfg} {index : Index} {source : Source} {key : Bytes}
    (other : Source) (name : Index) :
    sees env dir (saveTurn s index source key).transfer other name =
      sees env dir s.transfer other name := by
  rw [saveTurn, sees_update_of_secret]
  · rfl
  · rfl

theorem stalled_saveTurn {s : State cfg} {index : Index} {source : Source} {key : Bytes}
    (hs : ∀ name, Stalled (s.transfer name).client) (name : Index) :
    Stalled ((saveTurn s index source key).transfer name).client := by
  rw [saveTurn]
  dsimp only
  by_cases hname : name = index
  · rw [hname, Function.update_self]
    exact hs index
  · rw [Function.update_of_ne hname]
    exact hs name

end Steps

/-- Both sides read their directories and save their running keys. -/
theorem keys_agree_release : ∃ (t : State Config.release) (key : Bytes),
    (t.transfer otherIndex).slot.running .server = some key ∧
      (t.transfer otherIndex).slot.running .client = some key := by
  let rand : Index → Generator.Rand := fun _ ↦ id
  let fresh := State.fresh Config.release
  let t := scanTurn (scanTurn (.start releaseInit) fresh .server) (turned fresh .server) .client
  have hfresh : releaseInit otherIndex = fresh := init_of_not (by decide)
  have hrun := reachable_scanTurn rand 0 (s := .start releaseInit) (b := fresh) .server
    (by rw [← hfresh, Function.update_eq_self]; rfl) rfl rfl rfl
    fun _ _ hfinished ↦ by cases hfinished
  have hrun := hrun.trans (reachable_scanTurn rand 0 (b := turned fresh .server) .client
    rfl rfl rfl (by simp [scanTurn, State.setReading, State.start])
    fun other hne _ ↦ by
      cases other with
      | client => exact absurd rfl hne
      | server => exact setReading_reading _)
  have hreading (source : Source) : t.reading otherIndex source = releaseScan := by
    cases source <;> simp [t, scanTurn, State.setReading]
  have hsees (name : Index) (hname : name ∈ releaseScan.accepted) (source : Source) :
      sees releaseEnv releaseDir t.transfer source name = true := by
    have hsees := (Scan.mem_visitAll.mp hname).resolve_right List.not_mem_nil
    exact (sees_release (b := turned (turned fresh .server) .client) ⟨rfl, rfl⟩ source name).trans
      hsees.2
  have hstalled (name : Index) : Stalled (t.transfer name).client := by
    change Stalled (Function.update releaseInit otherIndex (turned (turned fresh .server) .client)
      name).client
    by_cases hname : name = otherIndex
    · rw [hname, Function.update_self]
      trivial
    · rw [Function.update_of_ne hname]
      trivial
  have hne : releaseScan.accepted ≠ [] := by
    have hsecret : "secret_1".toList ∈ releaseScan.accepted := by
      refine Scan.mem_visitAll.mpr (.inl ⟨by decide, ?_⟩)
      rw [sees_eq_true_iff]
      exact ⟨rfl, rfl⟩
    exact List.ne_nil_of_mem hsecret
  have hlength : releaseScan.accepted.length ≤ Config.release.fileNum := by
    rw [releaseScan, Scan.finish, Scan.visitAll_accepted]
    exact (List.length_filter_le _ _).trans (by decide)
  obtain ⟨key, hkey⟩ := exists_keyOf releaseEnv releaseDir rand 0 t otherIndex .server
    (by rwa [hreading]) (by rwa [hreading])
    fun name hname ↦ hsees name (by rwa [hreading] at hname) _
  have hrun := hrun.trans (reachable_saveTurn rand 0 rfl (by rw [hreading]; rfl) hkey
    fun name ↦ not_writing_of_stalled (hstalled name))
  have hreading' : (saveTurn t otherIndex .server key).reading otherIndex .client = releaseScan :=
    hreading .client
  obtain ⟨key', hkey'⟩ := exists_keyOf releaseEnv releaseDir rand 0
    (saveTurn t otherIndex .server key) otherIndex .client (by rwa [hreading']) (by rwa [hreading'])
    fun name hname ↦ by
      rw [sees_saveTurn]
      exact hsees name (by rwa [hreading'] at hname) _
  have hrun := hrun.trans (reachable_saveTurn rand 0 rfl (by rw [hreading']; rfl) hkey'
    fun name ↦ not_writing_of_stalled (stalled_saveTurn hstalled name))
  obtain ⟨hsame, -⟩ := keys_agree releaseEnv releaseDir rand 0 hrun otherIndex
  have hkeys := hsame .server .client key key' rfl rfl
  refine ⟨saveTurn (saveTurn t otherIndex .server key) otherIndex .client key', key, rfl, ?_⟩
  rw [hkeys]
  rfl

end Example

end ShannonNet.Transfer.Sharing
