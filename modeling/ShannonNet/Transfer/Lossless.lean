import ShannonNet.Transfer.Generation

namespace ShannonNet.Transfer

open Library.Runs Library.Buffer Library.Bitset Client Server

variable {cfg : Config} {env : Env cfg} {index : Index} {K : Bytes} {created : Source → Option ℕ}
  {s t : State cfg}

structure Complete (env : Env cfg) (content : Bytes) (s : State cfg) : Prop where
  client : s.client = .gather cfg.progress .done
  answered : ∀ p, ∃ data, s.pool.request p = .done ⟨200, "success", data⟩
  server : s.slot.secret (.server, env.clientNode) = some content
  copy : s.slot.secret (.client, env.clientNode) = some content
  valid : s.slot.valid env.clientNode = some Utils.nodeSecretValid

section Rank

def processRank : Process → ℕ
  | .idle => 4
  | .start => 3
  | .sent => 2
  | .append _ => 1
  | .done _ => 0

def gatherRank (cfg : Config) : Gather → ℕ
  | .readPiece num _ => 2 * (cfg.progress - num) + 11
  | .removePiece num _ => 2 * (cfg.progress - num) + 10
  | .crc _ => 10
  | .report _ _ .createTime => 9
  | .report _ _ .zadd => 8
  | .report _ _ .secretExists => 7
  | .report _ _ .remove => 6
  | .report _ _ (.done _) => 5
  | .openSecret _ => 4
  | .writeSecret _ => 3
  | .removeDir => 2
  | .done => 1

def clientRank (cfg : Config) : ClientRun → ℕ
  | .pull .serverTime _ => 2 * cfg.progress + 17
  | .pull (.clientTime _) _ => 2 * cfg.progress + 16
  | .pull .runningExists _ => 2 * cfg.progress + 15
  | .pull .pull none => 2 * cfg.progress + 14
  | .pull .pull (some _) => 2 * cfg.progress + 13
  | .pull (.gather _) _ => 2 * cfg.progress + 12
  | .gather _ loc => gatherRank cfg loc

def rank (s : State cfg) : ℕ :=
  ∑ p, Serving.rank (s.pool.request p) + ∑ p, processRank (s.process p) + clientRank cfg s.client

theorem process_rank {secretA : Option Bytes} {num : ℕ} {request : GetData.Pc} {pr pr' : Process}
    {slot slot' : Slot} (h : pr.step cfg secretA num request slot = some (pr', slot')) :
    processRank pr' < processRank pr := by
  obtain ⟨rfl, rfl, -⟩ | ⟨rfl, rfl | ⟨secrets, rfl⟩, -⟩ | ⟨secrets, rfl, rfl, -⟩ :=
    Process.step_cases h
  · exact Nat.lt_succ_self _
  · exact Nat.zero_lt_succ _
  · exact Nat.lt_succ_self _
  · exact Nat.lt_succ_self _

theorem gather_rank {node : ℕ} {content : Bytes} {crc32c : Bytes → UInt32} {dir : ℕ → Bool}
    {loc loc' : Gather} {slot slot' : Slot} (hloc : GatherAt cfg node content slot loc)
    (h : loc.step cfg crc32c dir node cfg.progress slot = some (loc', slot')) :
    gatherRank cfg loc' < gatherRank cfg loc := by
  cases loc with
  | readPiece num bufferVec =>
    simp only [Gather.step] at h
    split_ifs at h with hlt
    · cases h
      split <;> simp only [gatherRank] <;> omega
    · cases h
      simp only [gatherRank]
      omega
  | removePiece num bufferVec =>
    have hlt := hloc.1
    cases h
    simp only [gatherRank]
    omega
  | report bufferVec isValid pc =>
    obtain ⟨-, rfl, hreport⟩ := hloc
    cases pc with
    | createTime =>
      simp only [Gather.step, ResultReport.Pc.step, Option.map_some] at h
      cases h
      split_ifs <;> simp [gatherRank]
    | zadd =>
      simp only [Gather.step, ResultReport.Pc.step, if_true] at h
      cases h
      simp [gatherRank]
    | done res =>
      simp only [Gather.step, if_true] at h
      cases h
      simp [gatherRank]
    | _ => exact hreport.elim
  | done => cases h
  | _ =>
    cases h
    simp [gatherRank]

end Rank

/-- A transfer that goes on by itself: nothing is left to generate. -/
structure Live (env : Env cfg) (index : Index) (created : Source → Option ℕ) (K content : Bytes)
    (s : State cfg) : Prop extends Invariant env index created K content s where
  generator : ∀ source, s.generator source = .done
  created_ne : ∀ source, (created source).getD 0 ≠ 0
  polled : ∀ serverCreateTime secretA,
    s.client = .pull (.clientTime serverCreateTime) secretA → serverCreateTime ≠ 0

variable {W : WaitingSecret cfg env.crc32c}

structure Advances (s t : State cfg) : Prop where
  generator : t.generator = s.generator
  polled : ∀ serverCreateTime secretA,
    t.client = .pull (.clientTime serverCreateTime) secretA → serverCreateTime ≠ 0
  rank : rank t < rank s

theorem Advances.of_client {c c' : ClientRun} (slot : Slot) (hc : s.client = c)
    (hpolled : ∀ serverCreateTime secretA,
      c' = .pull (.clientTime serverCreateTime) secretA → serverCreateTime ≠ 0)
    (hrank : clientRank cfg c' < clientRank cfg c) :
    Advances s { s.withSlot slot with client := c' } := by
  refine ⟨rfl, hpolled, ?_⟩
  rw [← hc] at hrank
  dsimp only [Transfer.rank, State.withSlot]
  omega

theorem live_pull {loop loop' : Pull} {secretA : Option Bytes} {slot : Slot} {piece : Option ℕ}
    (hs : Live env index created K W.bytes s) (hc : s.client = .pull loop secretA)
    (hloop : loop = .pull → secretA ≠ none)
    (hstep : loop.step cfg s.slot = some (loop', slot, piece))
    (h : State.handOut { s.withSlot slot with client := .pull loop' secretA } piece = some t) :
    Advances s t := by
  have hclient := hs.client
  rw [hc] at hclient
  have hcreated (source : Source) : (s.slot.time source).getD 0 ≠ 0 := by
    rw [hs.time]
    exact hs.created_ne source
  cases loop with
  | serverTime =>
    cases hstep
    cases h
    refine .of_client s.slot hc ?_ ?_
    · intro serverCreateTime _ heq
      obtain rfl := Pull.clientTime.inj (ClientRun.pull.inj heq).1
      exact hcreated .server
    · simp [clientRank]
  | clientTime serverCreateTime =>
    rw [Pull.step, if_pos ⟨hs.polled _ _ hc, hcreated .client⟩] at hstep
    cases hstep
    cases h
    exact .of_client s.slot hc (fun _ _ heq ↦ by cases heq) (by simp [clientRank])
  | runningExists =>
    rw [Pull.step, hs.running] at hstep
    cases hstep
    cases h
    refine .of_client s.slot hc (fun _ _ heq ↦ by cases heq) ?_
    cases secretA <;> simp [clientRank]
  | gather progress => cases hstep
  | pull =>
    obtain ⟨rfl, hlt⟩ := hclient.loop.of_pull (hloop rfl)
    cases hstep
    rw [if_pos (show (s.slot.count .client).getD 0 + 1 ≤ cfg.progress from hlt)] at h
    obtain ⟨p, -, hidle, rfl⟩ := State.handOut_some h
    refine ⟨rfl, ?_, ?_⟩
    · intro _ _ heq
      dsimp only at heq
      split_ifs at heq <;> cases heq
    · have hidle' : s.process p = .idle := hidle
      have hprocess := sum_update_lt processRank s.process (k := p) (b := .start)
        (by rw [hidle']; exact Nat.lt_succ_self _)
      have hclient' : clientRank cfg s.client = 2 * cfg.progress + 13 := by rw [hc]; rfl
      dsimp only [rank, State.withSlot]
      rw [hclient']
      split_ifs <;> simp only [clientRank] <;> omega

theorem live_client (hs : Live env index created K W.bytes s)
    (h : s.step env index .client = some t) :
    Advances s t := by
  have hclient := hs.client
  cases State.stepClient_cases env h with
  | construct hc => exact .of_client s.slot hc (fun _ _ heq ↦ by cases heq) (by simp [clientRank])
  | finish hc =>
    exact .of_client s.slot hc (fun _ _ heq ↦ by cases heq) (by simp [clientRank, gatherRank])
  | pull hc hloop hstep ht => exact live_pull hs hc hloop hstep ht
  | gather hc hstep =>
    rw [hc] at hclient
    obtain rfl := hclient.progress_eq
    exact .of_client _ hc (fun _ _ heq ↦ by cases heq) (gather_rank hclient.gather hstep)

def IsTransfer : Act cfg → Prop
  | .generator _ _ => False
  | _ => True

theorem live_step (s : State cfg) (a : Act cfg) (t : State cfg)
    (hs : Live env index created K W.bytes s)
    (h : s.step env index a = some t) :
    Live env index created K W.bytes t ∧ IsTransfer a ∧ rank t < rank s := by
  cases a with
  | generator source o =>
    rw [State.step, if_pos (hs.generator source)] at h
    cases h
  | request p =>
    have ht := invariant_step (a := .request p) hs.toInvariant trivial h
    cases hp : s.process p with
    | sent =>
      rw [State.step, hp] at h
      obtain ⟨pool, hpool, rfl⟩ := Option.map_eq_some_iff.mp h
      obtain ⟨pc, slot, hpc, rfl⟩ := Pool.step_cases _ _ hpool
      refine ⟨⟨ht, hs.generator, hs.created_ne, hs.polled⟩, trivial, ?_⟩
      have hlt := sum_update_lt Serving.rank s.pool.request (Serving.rank_step hpc)
      dsimp only [rank]
      omega
    | _ =>
      rw [State.step, hp] at h
      cases h
  | process p =>
    have ht := invariant_step (a := .process p) hs.toInvariant trivial h
    obtain ⟨⟨pr, slot⟩, hstep, rfl⟩ := Option.map_eq_some_iff.mp h
    refine ⟨⟨ht, hs.generator, hs.created_ne, hs.polled⟩, trivial, ?_⟩
    have hlt := sum_update_lt processRank s.process (process_rank hstep)
    dsimp only [rank, State.withSlot]
    omega
  | client =>
    have ht := invariant_step (a := .client) hs.toInvariant trivial h
    have hadv := live_client hs h
    refine ⟨⟨ht, ?_, hs.created_ne, hadv.polled⟩, trivial, hadv.rank⟩
    intro source
    rw [hadv.generator]
    exact hs.generator source

theorem piece_enabled (hs : Invariant env index created K W.bytes s) {p : Fin cfg.progress}
    (hp : (s.process p).over = false) : ∃ a t, s.step env index a = some t := by
  have hclient := hs.client
  cases hc : s.client with
  | gather progress loc =>
    rw [hc] at hclient
    obtain ⟨flag, hflag⟩ := hclient.process p
    rw [hflag] at hp
    cases hp
  | pull loop secretA =>
    rw [hc] at hclient
    have hstep (pr : Process) (slot : Slot)
        (h : (s.process p).step cfg secretA p (s.pool.request p) s.slot = some (pr, slot)) :
        ∃ a t, s.step env index a = some t :=
      ⟨.process p, _, by rw [State.step, hc, ClientRun.secretA, h, Option.map_some]⟩
    cases hpr : s.process p with
    | start => exact hstep _ _ (by rw [hpr]; rfl)
    | append secrets => exact hstep _ _ (by rw [hpr]; rfl)
    | sent =>
      by_cases hdone : ∃ res, s.pool.request p = .done res
      · obtain ⟨res, hres⟩ := hdone
        have hholds := hs.serving.holds p
        rw [hres] at hholds
        obtain rfl := hholds
        have hidle := (hclient.idle p).not.mp (by simp [hpr])
        apply hstep (.append (pieceOf cfg W.bytes p)) s.slot
        rw [hpr, hres, Process.step, if_neg (by simp), hclient.loop.secretA (by omega),
          Option.bind_some, decryptPiece_pieceData W.length_eq p.isLt]
        rfl
      · obtain ⟨pool, hpool⟩ := hs.serving.enabled env.dir (fun _ ↦ rfl)
          (fun res hres ↦ hdone ⟨res, hres⟩)
        exact ⟨.request p, _, by rw [State.step, hpr, hpool]; rfl⟩
    | _ =>
      rw [hpr] at hp
      cases hp

theorem gather_enabled {node : ℕ} {content : Bytes} (crc32c : Bytes → UInt32) (dir : ℕ → Bool)
    (progress : ℕ) {loc : Gather} {slot : Slot} (hloc : GatherAt cfg node content slot loc)
    (hdone : loc ≠ .done) : ∃ r, loc.step cfg crc32c dir node progress slot = some r := by
  cases loc with
  | readPiece num bufferVec =>
    simp only [Gather.step]
    split_ifs <;> exact ⟨_, rfl⟩
  | report bufferVec isValid pc =>
    cases pc with
    | zadd =>
      obtain ⟨-, rfl, -⟩ := hloc
      exact ⟨_, rfl⟩
    | _ => exact ⟨_, rfl⟩
  | done => exact absurd rfl hdone
  | _ => exact ⟨_, rfl⟩

theorem enabled (hs : Invariant env index created K W.bytes s) :
    (∃ a t, s.step env index a = some t) ∨ s.client = .gather cfg.progress .done := by
  have hclient := hs.client
  cases hc : s.client with
  | pull loop secretA =>
    rw [hc] at hclient
    have hact (h : s.stepClient env ≠ none) : ∃ a t, s.step env index a = some t := by
      obtain ⟨t, ht⟩ := Option.ne_none_iff_exists'.mp h
      exact ⟨.client, t, ht⟩
    left
    cases loop with
    | gather progress =>
      by_cases hover : ∀ p, (s.process p).over = true
      · apply hact
        simp only [State.stepClient, hc]
        rw [if_pos hover]
        simp
      · obtain ⟨p, hp⟩ := not_forall.mp hover
        exact piece_enabled hs (Bool.eq_false_iff.mpr hp)
    | pull =>
      apply hact
      simp only [State.stepClient, hc]
      cases secretA with
      | none =>
        rw [hs.running]
        simp
      | some running =>
        have hlt : (s.slot.count .client).getD 0 < cfg.progress := hclient.loop.2
        have hidle := (hclient.idle ⟨_, hlt⟩).mpr le_rfl
        dsimp only
        rw [Pull.step, Option.bind_some,
          if_pos (show (s.slot.count .client).getD 0 + 1 ≤ cfg.progress from hlt),
            Nat.add_sub_cancel, State.handOut, dif_pos hlt]
        simp [State.withSlot, hidle]
    | _ =>
      apply hact
      simp only [State.stepClient, hc]
      intro h
      cases h
  | gather progress loc =>
    rw [hc] at hclient
    obtain rfl := hclient.progress_eq
    by_cases hdone : loc = .done
    · exact .inr (by rw [hdone])
    · obtain ⟨r, hr⟩ := gather_enabled env.crc32c env.dir cfg.progress hclient.gather
        hdone
      refine .inl ⟨.client, { s.withSlot r.2 with client := .gather cfg.progress r.1 }, ?_⟩
      simp only [State.step, State.stepClient, hc, hr, Option.map_some]

theorem complete_of_stuck (hs : Invariant env index created K W.bytes s)
    (hstuck : ∀ a, s.step env index a = none) : Complete env W.bytes s := by
  have hc : s.client = .gather cfg.progress .done := by
    apply (enabled hs).resolve_left
    rintro ⟨a, t, ht⟩
    rw [hstuck a] at ht
    cases ht
  have hclient := hs.client
  rw [hc] at hclient
  refine ⟨hc, ?_, (hs.serving.finished hclient.request).1, hclient.gather.2, hclient.gather.1⟩
  intro p
  obtain ⟨res, hres⟩ := hclient.request p
  have hholds := hs.serving.holds p
  rw [hres] at hholds
  obtain rfl := hholds
  exact ⟨_, hres⟩

theorem Published.live {content : Bytes} (h : Published env K content s) :
    Live env index s.slot.time K content s where
  toInvariant := h.invariant
  generator := h.generator
  created_ne := h.time
  polled serverCreateTime secretA hc := by
    rw [h.begin] at hc
    cases hc

/-- From a published index, under every interleaving: requests are answered 200, the waiting secret
stays until its pieces have been read, `gather` finds the checksum right and reports VALID, no run
goes on for ever, and one that cannot go on has left the secret on both sides. -/
theorem transfer_lossless (env : Env cfg) (index : Index) (W : WaitingSecret cfg env.crc32c)
    (hinit : Published env K W.bytes s)
    (hrun : Reachable (State.step env index) (fun _ _ ↦ True) s t) :
    (∀ p res, t.pool.request p = .done res → res.statusCode = 200) ∧
    (t.slot.waiting ≠ some W.bytes → Coverage.Covered (env.request index) t.pool) ∧
    (∀ progress bufferVec isValid pc, t.client = .gather progress (.report bufferVec isValid pc) →
      bufferVec = W.bytes ∧ isValid = Utils.nodeSecretValid) ∧
    (∃ n, ∀ acts u, exec (State.step env index) t acts = some u → acts.length ≤ n) ∧
    ((∀ a, t.step env index a = none) → Complete env W.bytes t) := by
  have hlive : Live env index s.slot.time K W.bytes t :=
    hrun.invariant hinit.live fun s a t hs _ h ↦ (live_step s a t hs h).1
  refine ⟨?_, hlive.serving.covered fun _ ↦ rfl, ?_,
    ⟨rank t, ?_⟩, complete_of_stuck hlive.toInvariant⟩
  · intro p res hres
    have hholds := hlive.serving.holds p
    rw [hres] at hholds
    obtain rfl := hholds
    rfl
  · intro progress bufferVec isValid pc hc
    have hclient := hlive.client
    rw [hc] at hclient
    exact ⟨hclient.gather.1, hclient.gather.2.1⟩
  · intro acts u hacts
    exact exec_length_le live_step hlive hacts

def releaseEnv : Env Config.release where
  crc32c := Library.Crc.castagnoli
  clientNode := 1
  clientNode_pos := Nat.one_pos
  coins _ _ _ := .release

def releaseSecret : WaitingSecret Config.release releaseEnv.crc32c :=
  generateSecret _ _ (zeros Config.release.secretASize) (zeros_length _)

def releaseKey : Bytes := zeros Config.release.secretFileSize

theorem transfer_lossless_release : ∃ s t, Published releaseEnv releaseKey releaseSecret.bytes s ∧
    Reachable (State.step releaseEnv []) (fun _ _ ↦ True) s t ∧
      Complete releaseEnv releaseSecret.bytes t := by
  obtain ⟨s, -, hinit⟩ := exists_published releaseEnv [] releaseKey releaseSecret
  obtain ⟨t, hrun, hstuck⟩ := exists_stuck live_step s hinit.live
  have hrun := hrun.mono fun _ _ _ ↦ trivial
  obtain ⟨-, -, -, -, hcomplete⟩ := transfer_lossless releaseEnv [] releaseSecret hinit hrun
  exact ⟨s, t, hinit, hrun, hcomplete hstuck⟩

end ShannonNet.Transfer
