import ShannonNet.Server.Serving
import ShannonNet.Transfer.Gather
import ShannonNet.Transfer.System

namespace ShannonNet.Transfer

open Library.Bitset Client Server

variable {cfg : Config} {env : Env cfg} {index : Index} {K : Bytes} {created : Source → Option ℕ}
  {s t : State cfg}

def PullAt (cfg : Config) (K : Bytes) (count : ℕ) : Pull → Option Bytes → Prop
  | .pull, none => count = 0
  | .pull, some running => running = K ∧ count < cfg.progress
  | .gather progress, secretA => secretA = some K ∧ progress = cfg.progress ∧ count = cfg.progress
  | _, secretA => secretA = none ∧ count = 0

def ProcessAt (cfg : Config) (content : Bytes) (num : ℕ) (request : GetData.Pc)
    (piece : Option Bytes) :
    Process → Prop
  | .idle => request = .createTime ∧ piece = none
  | .start => request = .createTime ∧ piece = none
  | .sent => piece = none
  | .append secrets => (∃ res, request = .done res) ∧ secrets = pieceOf cfg content num ∧
    piece = none
  | .done _ => (∃ res, request = .done res) ∧ piece = some (pieceOf cfg content num)

structure Pulling (node : ℕ) (K content : Bytes) (s : State cfg) (loop : Pull)
    (secretA : Option Bytes) :
    Prop where
  loop : PullAt cfg K ((s.slot.count .client).getD 0) loop secretA
  idle : ∀ p : Fin cfg.progress, s.process p = .idle ↔ (s.slot.count .client).getD 0 ≤ p
  process : ∀ p : Fin cfg.progress,
    ProcessAt cfg content p (s.pool.request p) (s.slot.piece p) (s.process p)
  unreported : NotReported node s.slot

structure Gathering (node : ℕ) (content : Bytes) (s : State cfg) (progress : ℕ) (loc : Gather) :
    Prop where
  progress_eq : progress = cfg.progress
  process : ∀ p, ∃ flag, s.process p = .done flag
  request : ∀ p, ∃ res, s.pool.request p = .done res
  gather : GatherAt cfg node content s.slot loc

def ClientAt (node : ℕ) (K content : Bytes) (s : State cfg) : ClientRun → Prop
  | .pull loop secretA => Pulling node K content s loop secretA
  | .gather progress loc => Gathering node content s progress loc

def Announced : Generator.Pc → Prop
  | .zaddCount => True
  | .del => True
  | .done => True
  | _ => False

/-- The transfer of the waiting secret `content` under the running key `K`. -/
structure Invariant (env : Env cfg) (index : Index) (created : Source → Option ℕ)
    (K content : Bytes)
    (s : State cfg) : Prop where
  serving : Serving.Invariant env.clientNode K content (env.request index) s.pool
  time : s.slot.time = created
  isSome : ∀ source, (created source).isSome
  running : s.slot.running .client = some K
  announced : ∀ source, Announced (s.generator source)
  client : ClientAt env.clientNode K content s s.client

def Polling (slot : Slot) : ClientRun → Prop
  | .pull .serverTime none => True
  | .pull (.clientTime serverCreateTime) none => serverCreateTime ≠ 0 → (slot.time .server).isSome
  | _ => False

structure Untransferred (env : Env cfg) (s : State cfg) : Prop where
  request : ∀ p, s.pool.request p = .createTime
  counted : s.pool.counted = []
  entered : s.pool.entered = []
  process : ∀ p, s.process p = .idle
  client : Polling s.slot s.client
  count : ∀ source, (s.slot.count source).getD 0 = 0
  piece : ∀ p : Fin cfg.progress, s.slot.piece p = none
  secret : ∀ source, s.slot.secret (source, env.clientNode) = none
  valid : s.slot.valid env.clientNode = none

theorem Untransferred.invariant {content : Bytes} (h : Untransferred env s)
    (htime : ∀ source, (s.slot.time source).isSome)
    (hrunning : ∀ source, s.slot.running source = some K)
    (hwaiting : s.slot.waiting = some content)
    (hannounced : ∀ source, Announced (s.generator source)) :
    Invariant env index s.slot.time K content s where
  serving := .of_initial ⟨h.request, h.counted, h.count .server⟩
    ⟨h.request, h.entered, hwaiting, h.secret .server, h.valid⟩ (htime .server) (hrunning .server)
  time := rfl
  isSome := htime
  running := hrunning .client
  announced := hannounced
  client := by
    have hidle (p : Fin cfg.progress) : s.process p = .idle ↔ (s.slot.count .client).getD 0 ≤ p :=
      iff_of_true (h.process p) (by rw [h.count]; exact Nat.zero_le _)
    have hprocess (p : Fin cfg.progress) :
        ProcessAt cfg content p (s.pool.request p) (s.slot.piece p) (s.process p) := by
      rw [h.process]
      exact ⟨h.request p, h.piece p⟩
    have hunreported : NotReported env.clientNode s.slot :=
      ⟨by simp [h.valid], h.secret .client⟩
    have hpolling := h.client
    cases hc : s.client with
    | gather progress loc =>
      rw [hc] at hpolling
      exact hpolling.elim
    | pull loop secretA =>
      rw [hc] at hpolling
      refine ⟨?_, hidle, hprocess, hunreported⟩
      cases secretA with
      | some running => cases loop <;> exact hpolling.elim
      | none =>
        cases loop with
        | serverTime => exact ⟨rfl, h.count .client⟩
        | clientTime serverCreateTime => exact ⟨rfl, h.count .client⟩
        | _ => exact hpolling.elim

variable {W : WaitingSecret cfg env.crc32c}

theorem ClientAt.frame {node : ℕ} {content : Bytes} {c : ClientRun}
    (h : ClientAt node K content s c)
    (hrequest : t.pool.request = s.pool.request) (hprocess : t.process = s.process)
    (hcount : (t.slot.count .client).getD 0 = (s.slot.count .client).getD 0)
    (hpiece : t.slot.piece = s.slot.piece) (hvalid : t.slot.valid node = s.slot.valid node)
    (hsecret : t.slot.secret (.client, node) = s.slot.secret (.client, node)) :
    ClientAt node K content t c := by
  cases c with
  | pull loop secretA =>
    refine ⟨?_, ?_, ?_, ?_, ?_⟩
    · rw [hcount]
      exact h.loop
    · intro p
      rw [hcount, hprocess]
      exact h.idle p
    · intro p
      rw [hrequest, hprocess, hpiece]
      exact h.process p
    · rw [hvalid]
      exact h.unreported.1
    · rw [hsecret]
      exact h.unreported.2
  | gather progress loc =>
    refine ⟨h.progress_eq, ?_, ?_, h.gather.frame hpiece hvalid hsecret⟩
    · intro p
      rw [hprocess]
      exact h.process p
    · intro p
      rw [hrequest]
      exact h.request p

theorem announced_step {source : Source} {o : Generator.Outcome} {pc : Generator.Pc} {slot : Slot}
    (h : Announced pc) (hfresh : pc = .zaddCount → slot.count source = none) :
    Announced (pc.step source o slot).1 ∧ ∃ lock count,
      (pc.step source o slot).2 = { slot with lock := lock, count := count } ∧
        ∀ src, (count src).getD 0 = (slot.count src).getD 0 := by
  cases pc with
  | zaddCount =>
    refine ⟨?_, _, _, rfl, ?_⟩
    · simp only [Generator.Pc.step]
      split_ifs <;> trivial
    · intro src
      by_cases hsrc : src = source
      · rw [hsrc, Function.update_self, hfresh rfl]
        rfl
      · rw [Function.update_of_ne hsrc]
  | del => exact ⟨trivial, _, _, rfl, fun _ ↦ rfl⟩
  | done => exact ⟨trivial, _, _, rfl, fun _ ↦ rfl⟩
  | _ => exact h.elim

theorem invariant_generator {content : Bytes} {source : Source} {o : Generator.Outcome}
    (hs : Invariant env index created K content s)
    (hfresh : s.generator source = .zaddCount → s.slot.count source = none)
    (h : s.step env index (.generator source o) = some t) :
    Invariant env index created K content t := by
  rw [State.step] at h
  split_ifs at h with hdone
  obtain ⟨hpc, lock, count, hslot, hcount⟩ := announced_step (o := o) (hs.announced source) hfresh
  generalize (s.generator source).step source o s.slot = r at h hpc hslot
  obtain ⟨pc, slot⟩ := r
  obtain rfl : slot = _ := hslot
  cases h
  refine ⟨hs.serving.frame (hs.serving.move.frame rfl rfl rfl) (hcount .server) rfl rfl, hs.time,
    hs.isSome, hs.running, ?_, hs.client.frame rfl rfl (hcount .client) rfl rfl rfl⟩
  intro src
  by_cases hsrc : src = source
  · subst hsrc
    simpa only [Function.update_self] using hpc
  · simpa only [Function.update_of_ne hsrc] using hs.announced src

theorem Pulling.request {node : ℕ} {content : Bytes} {loop : Pull} {secretA : Option Bytes}
    {p : Fin cfg.progress} (hs : Pulling node K content s loop secretA) (hp : s.process p = .sent)
    (hslot : GetData.Preserved s.slot t.slot) (hprocess : t.process = s.process)
    (hrequest : ∀ q ≠ p, t.pool.request q = s.pool.request q) :
    Pulling node K content t loop secretA := by
  refine ⟨?_, ?_, ?_, ?_, ?_⟩
  · rw [hslot.count]
    exact hs.loop
  · intro q
    rw [hslot.count, hprocess]
    exact hs.idle q
  · intro q
    rw [hslot.piece, hprocess]
    have hpiece := hs.process q
    by_cases hq : q = p
    · rw [hq, hp] at hpiece ⊢
      exact hpiece
    · rw [hrequest q hq]
      exact hpiece
  · exact fun hvalid ↦ hs.unreported.1 (hslot.valid _ hvalid)
  · rw [hslot.secret]
    exact hs.unreported.2

theorem invariant_request {content : Bytes} {p : Fin cfg.progress}
    (hW : content.length = cfg.secretASize)
    (hs : Invariant env index created K content s) (h : s.step env index (.request p) = some t) :
    Invariant env index created K content t := by
  cases hp : s.process p with
  | sent =>
    rw [State.step, hp] at h
    obtain ⟨pool, hpool, rfl⟩ := Option.map_eq_some_iff.mp h
    have hserving := hs.serving.step (fun _ ↦ rfl) (fun _ ↦ rfl) env.dir_clientNode hW hpool
    obtain ⟨pc, slot, hpc, rfl⟩ := Pool.step_cases _ _ hpool
    have hpres := GetData.Pc.step_preserved hpc
    refine ⟨hserving, ?_, hs.isSome, ?_, hs.announced, ?_⟩
    · rw [State.slot, hpres.time]
      exact hs.time
    · rw [State.slot, hpres.running]
      exact hs.running
    · have hclient := hs.client
      dsimp only
      cases hc : s.client with
      | pull loop secretA =>
        rw [hc] at hclient
        exact hclient.request hp hpres rfl fun q hq ↦ Function.update_of_ne hq _ _
      | gather progress loc =>
        rw [hc] at hclient
        obtain ⟨flag, hflag⟩ := hclient.process p
        exact absurd (hp.symm.trans hflag) (by simp)
  | _ =>
    rw [State.step, hp] at h
    cases h

theorem process_step {content : Bytes} {r : GetData.Request cfg} {request : GetData.Pc}
    {slot slot' : Slot}
    {secretA : Option Bytes} {pr pr' : Process} (hcontent : content.length = cfg.secretASize)
    (hr : r.progress < cfg.progress) (hholds : Serving.Holds K content r request)
    (h : ProcessAt cfg content r.progress request (slot.piece r.progress) pr)
    (hsecretA : pr ≠ .idle → secretA = some K)
    (hstep : pr.step cfg secretA r.progress request slot = some (pr', slot')) :
    ProcessAt cfg content r.progress request (slot'.piece r.progress) pr' ∧ pr ≠ .idle ∧
      pr' ≠ .idle := by
  cases pr with
  | idle => cases hstep
  | start =>
    cases hstep
    exact ⟨h.2, by simp, by simp⟩
  | sent =>
    cases hrequest : request with
    | done res =>
      rw [hrequest] at hholds hstep
      obtain rfl := hholds
      rw [Process.step, if_neg (by simp), hsecretA (by simp), Option.bind_some,
        decryptPiece_pieceData hcontent hr, Option.map_some] at hstep
      cases hstep
      exact ⟨⟨⟨_, rfl⟩, rfl, h⟩, by simp, by simp⟩
    | _ =>
      rw [hrequest] at hstep
      cases hstep
  | append secrets =>
    obtain ⟨hrequest, rfl, hpiece⟩ := h
    cases hstep
    refine ⟨⟨hrequest, ?_⟩, by simp, by simp⟩
    dsimp only
    rw [Function.update_self, hpiece]
    rfl
  | done flag => cases hstep

theorem PullAt.secretA {count : ℕ} {loop : Pull} {secretA : Option Bytes}
    (h : PullAt cfg K count loop secretA) (hcount : count ≠ 0) : secretA = some K := by
  cases loop with
  | pull =>
    cases secretA with
    | none => exact absurd h hcount
    | some running => exact congrArg some h.1
  | gather progress => exact h.1
  | _ => exact absurd h.2 hcount

theorem PullAt.of_pull {count : ℕ} {secretA : Option Bytes} (h : PullAt cfg K count .pull secretA)
    (hsecretA : secretA ≠ none) : secretA = some K ∧ count < cfg.progress := by
  cases secretA with
  | none => exact absurd rfl hsecretA
  | some running => exact ⟨congrArg some h.1, h.2⟩

theorem invariant_process {p : Fin cfg.progress} (hs : Invariant env index created K W.bytes s)
    (h : s.step env index (.process p) = some t) : Invariant env index created K W.bytes t := by
  obtain ⟨⟨pr, slot⟩, hstep, rfl⟩ := Option.map_eq_some_iff.mp h
  have hclient := hs.client
  cases hc : s.client with
  | pull loop secretA =>
    rw [hc] at hclient hstep
    have hsecretA (hidle : s.process p ≠ .idle) : secretA = some K := by
      rw [Ne, hclient.idle] at hidle
      exact hclient.loop.secretA (by omega)
    obtain ⟨hpr, hidle, hidle'⟩ := process_step (r := env.request index p) W.length_eq p.isLt
      (hs.serving.holds p) (hclient.process p) hsecretA hstep
    obtain ⟨file, rfl⟩ := Process.step_slot hstep
    refine ⟨hs.serving.frame (hs.serving.move.frame rfl rfl rfl) rfl rfl rfl, hs.time, hs.isSome,
      hs.running, hs.announced, ?_⟩
    dsimp only [State.withSlot]
    rw [hc]
    refine ⟨hclient.loop, ?_, ?_, hclient.unreported⟩
    · intro q
      by_cases hq : q = p
      · subst hq
        have hcount := (hclient.idle q).not.mp hidle
        exact iff_of_false (by simpa only [Function.update_self] using hidle') hcount
      · dsimp only
        rw [Function.update_of_ne hq]
        exact hclient.idle q
    · intro q
      by_cases hq : q = p
      · subst hq
        have hself := Function.update_self q pr s.process
        dsimp only
        rw [hself]
        exact hpr
      · have hval : (q : ℕ) ≠ p := fun h ↦ hq (Fin.ext h)
        dsimp only [State.slot]
        rw [Function.update_of_ne hq, Function.update_of_ne hval]
        exact hclient.process q
  | gather progress loc =>
    rw [hc] at hclient
    obtain ⟨flag, hflag⟩ := hclient.process p
    rw [hflag] at hstep
    cases hstep

theorem Invariant.poll {content : Bytes} {loop loop' : Pull}
    (hs : Invariant env index created K content s)
    (hc : s.client = .pull loop none) (hcount : (s.slot.count .client).getD 0 = 0)
    (hloop' : ∀ progress, loop' ≠ .gather progress) :
    Invariant env index created K content
      { s.withSlot s.slot with client := .pull loop' none } := by
  have hclient := hs.client
  rw [hc] at hclient
  refine ⟨hs.serving, hs.time, hs.isSome, hs.running, hs.announced, ?_, hclient.idle,
    hclient.process,
    hclient.unreported⟩
  cases loop' with
  | gather progress => exact absurd rfl (hloop' progress)
  | pull => exact hcount
  | _ => exact ⟨rfl, hcount⟩

/-- The client counts piece `p` and starts a thread for it. -/
theorem Pulling.take {node : ℕ} {content : Bytes} (hs : Pulling node K content s .pull (some K))
    {p : Fin cfg.progress} (hp : (s.slot.count .client).getD 0 = p)
    (hslot : t.slot =
      { s.slot with count := Function.update s.slot.count .client (some (p.val + 1)) })
    (hrequest : t.pool.request = s.pool.request)
    (hprocess : t.process = Function.update s.process p .start) :
    Pulling node K content t (if p.val + 1 ≥ cfg.progress then .gather (p + 1) else .pull)
      (some K) := by
  have hlt := p.isLt
  have hidle : s.process p = .idle := (hs.idle p).mpr hp.le
  have hcount : t.slot.count .client = some (p.val + 1) := by
    simp [hslot]
  refine ⟨?_, ?_, ?_, ?_⟩
  · rw [hcount, Option.getD_some]
    split_ifs with hge
    · exact ⟨rfl, by omega, by omega⟩
    · exact ⟨rfl, by omega⟩
  · intro q
    rw [hcount, Option.getD_some, hprocess]
    by_cases hq : q = p
    · rw [hq, Function.update_self]
      exact iff_of_false (by simp) (by simp)
    · have hval : (q : ℕ) ≠ p := fun h ↦ hq (Fin.ext h)
      rw [Function.update_of_ne hq, hs.idle, hp]
      omega
  · intro q
    have hproc := hs.process q
    rw [hslot, hrequest, hprocess]
    by_cases hq : q = p
    · rw [hq, hidle] at hproc
      rw [hq, Function.update_self]
      exact hproc
    · rw [Function.update_of_ne hq]
      exact hproc
  · rw [hslot]
    exact hs.unreported

theorem invariant_pull {loop loop' : Pull} {secretA : Option Bytes} {slot : Slot} {piece : Option ℕ}
    (hs : Invariant env index created K W.bytes s) (hc : s.client = .pull loop secretA)
    (hloop : loop = .pull → secretA ≠ none)
    (hstep : loop.step cfg s.slot = some (loop', slot, piece))
    (h : State.handOut { s.withSlot slot with client := .pull loop' secretA } piece = some t) :
    Invariant env index created K W.bytes t := by
  have hclient := hs.client
  rw [hc] at hclient
  cases loop with
  | serverTime =>
    cases hstep
    cases h
    obtain ⟨rfl, hcount⟩ := hclient.loop
    exact hs.poll hc hcount (by simp)
  | clientTime serverCreateTime =>
    cases hstep
    cases h
    obtain ⟨rfl, hcount⟩ := hclient.loop
    exact hs.poll hc hcount fun _ ↦ by split_ifs <;> simp
  | runningExists =>
    cases hstep
    cases h
    obtain ⟨rfl, hcount⟩ := hclient.loop
    exact hs.poll hc hcount fun _ ↦ by split_ifs <;> simp
  | gather progress => cases hstep
  | pull =>
    obtain ⟨rfl, hlt⟩ := hclient.loop.of_pull (hloop rfl)
    cases hstep
    rw [if_pos (show (s.slot.count .client).getD 0 + 1 ≤ cfg.progress from hlt),
      Nat.add_sub_cancel] at h
    obtain ⟨p, hp, -, rfl⟩ := State.handOut_some h
    refine ⟨hs.serving.frame (hs.serving.move.frame rfl rfl rfl) ?_ rfl rfl, hs.time, hs.isSome,
      hs.running, hs.announced, ?_⟩
    · simp [State.slot]
    · rw [← hp]
      exact hclient.take hp.symm rfl rfl rfl

theorem invariant_client (hs : Invariant env index created K W.bytes s)
    (h : s.step env index .client = some t) : Invariant env index created K W.bytes t := by
  have hclient := hs.client
  cases State.stepClient_cases env h with
  | construct hc hrunning =>
    rw [hc] at hclient
    obtain rfl := Option.some.inj (hs.running.symm.trans hrunning)
    refine ⟨hs.serving, hs.time, hs.isSome, hs.running, hs.announced, ⟨rfl, ?_⟩, hclient.idle,
      hclient.process, hclient.unreported⟩
    have hcount : (s.slot.count .client).getD 0 = 0 := hclient.loop
    rw [State.slot] at hcount ⊢
    rw [hcount]
    exact cfg.progress_pos
  | @finish progress secretA hc hover =>
    rw [hc] at hclient
    have hdone (p : Fin cfg.progress) : ∃ flag, s.process p = .done flag := by
      cases hp : s.process p with
      | idle =>
        have hle := (hclient.idle p).mp hp
        rw [hclient.loop.2.2] at hle
        exact absurd p.isLt (by omega)
      | done flag => exact ⟨flag, rfl⟩
      | _ => exact absurd (hover p) (by simp [hp, Process.over])
    refine ⟨hs.serving, hs.time, hs.isSome, hs.running, hs.announced, hclient.loop.2.1, hdone, ?_,
      Nat.zero_le _, (gathered_zero W.length_eq).symm, ?_, hclient.unreported⟩
    · intro p
      obtain ⟨flag, hflag⟩ := hdone p
      have hp := hclient.process p
      rw [hflag] at hp
      exact hp.1
    · intro n _ hn
      obtain ⟨flag, hflag⟩ := hdone ⟨n, hn⟩
      have hp := hclient.process ⟨n, hn⟩
      rw [hflag] at hp
      exact hp.2
  | pull hc hloop hstep ht => exact invariant_pull hs hc hloop hstep ht
  | @gather progress loc loc' slot hc hstep =>
    rw [hc] at hclient
    obtain rfl := hclient.progress_eq
    obtain ⟨hloc, hframe⟩ := gather_step W hclient.gather hs.serving.time env.dir_clientNode hstep
    have hmove : Move.Invariant env.clientNode W.bytes { s.pool with slot := slot } := by
      rcases hframe.valid with hvalid | hvalid
      · exact hs.serving.move.frame hframe.waiting hframe.secret hvalid
      · exact hs.serving.move.frame_of_done hclient.request (hs.serving.finished hclient.request).1
          hframe.secret (by simp [hvalid, Utils.nodeSecretValid])
    refine ⟨hs.serving.frame hmove ?_ ?_ ?_, hframe.time.trans hs.time, hs.isSome, ?_, hs.announced,
      ⟨rfl, hclient.process, hclient.request, hloc⟩⟩
    · rw [hframe.count]
      rfl
    · rw [hframe.time]
      rfl
    · rw [hframe.running]
      rfl
    · exact (congrFun hframe.running _).trans hs.running

def FreshCount (s : State cfg) : Act cfg → Prop
  | .generator source _ => s.generator source = .zaddCount → s.slot.count source = none
  | _ => True

theorem invariant_step {a : Act cfg} (hs : Invariant env index created K W.bytes s)
    (hfresh : FreshCount s a) (h : s.step env index a = some t) :
    Invariant env index created K W.bytes t := by
  cases a with
  | generator source o => exact invariant_generator hs hfresh h
  | request p => exact invariant_request W.length_eq hs h
  | process p => exact invariant_process hs h
  | client => exact invariant_client hs h

end ShannonNet.Transfer
