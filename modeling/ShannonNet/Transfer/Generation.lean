import ShannonNet.Transfer.Invariant

namespace ShannonNet.Transfer

open Library.Runs Library.Bitset Client Server

variable {cfg : Config} {env : Env cfg} {index : Index} {K : Bytes} {s t : State cfg}

/-- Both sides generate one running key for the index, each initialises its counter before it is
used, and the waiting secret is written whole. -/
def Regular (env : Env cfg) (s : State cfg) : Act cfg → Prop
  | .generator source o =>
    match s.generator source with
    | .saveRunning => ∀ other key, s.slot.running other = some key →
      ∀ key', o.running = some key' → key' = key
    | .saveWaiting => ∃ W : WaitingSecret cfg env.crc32c, o.waiting = some W.bytes
    | .zaddCount => s.slot.count source = none
    | _ => True
  | _ => True

theorem Regular.freshCount {a : Act cfg} (h : Regular env s a) : FreshCount s a := by
  cases a with
  | generator source o =>
    intro hpc
    rw [Regular, hpc] at h
    exact h
  | _ => trivial

def Prepared (env : Env cfg) (slot : Slot) (source : Source) : Prop :=
  (slot.running source).isSome ∧
    (source = .server → ∃ W : WaitingSecret cfg env.crc32c, slot.waiting = some W.bytes)

def GeneratorAt (env : Env cfg) (slot : Slot) (source : Source) : Generator.Pc → Prop
  | .createTime => slot.time source = none
  | .saveRunning => slot.time source = none
  | .saveWaiting => slot.time source = none ∧ source = .server ∧ (slot.running source).isSome
  | .zaddTime => slot.time source = none ∧ Prepared env slot source
  | _ => (slot.time source).isSome → Prepared env slot source

structure Quiet (env : Env cfg) (s : State cfg) : Prop extends Untransferred env s where
  same : ∀ source other key key', s.slot.running source = some key →
    s.slot.running other = some key' → key = key'
  generator : ∀ source, GeneratorAt env s.slot source (s.generator source)

structure GeneratorFrame (source : Source) (o : Generator.Outcome) (pc : Generator.Pc)
    (slot slot' : Slot) : Prop where
  piece : slot'.piece = slot.piece
  secret : slot'.secret = slot.secret
  valid : slot'.valid = slot.valid
  time : ∀ other ≠ source, slot'.time other = slot.time other
  isSome : ∀ other, (slot.time other).isSome → (slot'.time other).isSome
  count : ∀ other, (slot'.count other).getD 0 = (slot.count other).getD 0
  waiting : source ≠ .server → slot'.waiting = slot.waiting
  running : slot'.running = slot.running ∨ pc = .saveRunning ∧ ∃ key, o.running = some key ∧
    slot'.running = Function.update slot.running source (some key)

theorem GeneratorFrame.refl {source : Source} {o : Generator.Outcome} {pc : Generator.Pc}
    {slot : Slot} :
    GeneratorFrame source o pc slot slot :=
  ⟨rfl, rfl, rfl, fun _ _ ↦ rfl, fun _ ↦ id, fun _ ↦ rfl, fun _ ↦ rfl, .inl rfl⟩

theorem generator_step {source : Source} {o : Generator.Outcome} {pc : Generator.Pc} {slot : Slot}
    (h : GeneratorAt env slot source pc) (hfresh : pc = .zaddCount → slot.count source = none)
    (hwaiting : pc = .saveWaiting → ∃ W : WaitingSecret cfg env.crc32c, o.waiting = some W.bytes) :
    GeneratorAt env (pc.step source o slot).2 source (pc.step source o slot).1 ∧
      GeneratorFrame source o pc slot (pc.step source o slot).2 := by
  cases pc with
  | createTime =>
    have htime : slot.time source = none := h
    simp only [Generator.Pc.step, htime, Option.isSome_none, Bool.false_eq_true, if_false]
    exact ⟨h, .refl⟩
  | saveRunning =>
    have htime : slot.time source = none := h
    simp only [Generator.Pc.step]
    cases hkey : o.running with
    | none => exact ⟨fun hsome ↦ absurd hsome (by simp [htime]), .refl⟩
    | some key =>
      have hframe : GeneratorFrame source o .saveRunning slot
          { slot with running := Function.update slot.running source (some key) } :=
        ⟨rfl, rfl, rfl, fun _ _ ↦ rfl, fun _ ↦ id, fun _ ↦ rfl, fun _ ↦ rfl,
          .inr ⟨rfl, key, hkey, rfl⟩⟩
      refine ⟨?_, hframe⟩
      dsimp only
      split_ifs with hserver
      · exact ⟨htime, hserver, by simp⟩
      · exact ⟨htime, by simp, fun hsrc ↦ absurd hsrc hserver⟩
  | saveWaiting =>
    obtain ⟨htime, hserver, hrunning⟩ := h
    obtain ⟨W, hW⟩ := hwaiting rfl
    simp only [Generator.Pc.step, hW]
    exact ⟨⟨htime, hrunning, fun _ ↦ ⟨W, rfl⟩⟩,
      ⟨rfl, rfl, rfl, fun _ _ ↦ rfl, fun _ ↦ id, fun _ ↦ rfl,
      fun hne ↦ absurd hserver hne, .inl rfl⟩⟩
  | zaddTime =>
    obtain ⟨htime, hprepared⟩ := h
    simp only [Generator.Pc.step, htime, Option.isSome_none, Bool.false_eq_true, if_false]
    refine ⟨fun _ ↦ hprepared, ⟨rfl, rfl, rfl, fun other hne ↦ Function.update_of_ne hne _ _,
      ?_, fun _ ↦ rfl, fun _ ↦ rfl, .inl rfl⟩⟩
    intro other hsome
    by_cases hne : other = source
    · simp [hne]
    · simpa [hne] using hsome
  | zaddCount =>
    have hnone := hfresh rfl
    simp only [Generator.Pc.step]
    refine ⟨?_, ⟨rfl, rfl, rfl, fun _ _ ↦ rfl, fun _ ↦ id, ?_, fun _ ↦ rfl, .inl rfl⟩⟩
    · split_ifs
      · exact h
      · exact h
    · intro other
      by_cases hne : other = source
      · simp [hne, hnone]
      · simp [hne]
  | del => exact ⟨h, ⟨rfl, rfl, rfl, fun _ _ ↦ rfl, fun _ ↦ id, fun _ ↦ rfl, fun _ ↦ rfl, .inl rfl⟩⟩
  | done => exact ⟨h, .refl⟩

theorem GeneratorAt.frame {source other : Source} {o : Generator.Outcome} {pc pc' : Generator.Pc}
    {slot slot' : Slot} (h : GeneratorAt env slot other pc')
    (hframe : GeneratorFrame source o pc slot slot') (hne : other ≠ source) :
    GeneratorAt env slot' other pc' := by
  have htime := hframe.time other hne
  have hrunning : slot'.running other = slot.running other := by
    rcases hframe.running with heq | ⟨-, key, -, heq⟩
    · rw [heq]
    · rw [heq, Function.update_of_ne hne]
  have hprepared (hp : Prepared env slot other) : Prepared env slot' other := by
    refine ⟨by rw [hrunning]; exact hp.1, ?_⟩
    intro hserver
    rw [hframe.waiting fun hsrc ↦ hne (hserver.trans hsrc.symm)]
    exact hp.2 hserver
  cases pc' with
  | createTime => exact htime.trans h
  | saveRunning => exact htime.trans h
  | saveWaiting => exact ⟨htime.trans h.1, h.2.1, by rw [hrunning]; exact h.2.2⟩
  | zaddTime => exact ⟨htime.trans h.1, hprepared h.2⟩
  | _ => exact fun hsome ↦ hprepared (h (by rwa [← htime]))

theorem Polling.frame {slot slot' : Slot} {c : ClientRun} (h : Polling slot c)
    (hsome : (slot.time .server).isSome → (slot'.time .server).isSome) : Polling slot' c := by
  cases c with
  | gather progress loc => exact h
  | pull loop secretA =>
    cases secretA with
    | some running => cases loop <;> exact h.elim
    | none =>
      cases loop with
      | clientTime serverCreateTime => exact fun hne ↦ hsome (h hne)
      | _ => exact h

theorem quiet_generator {source : Source} {o : Generator.Outcome} (hs : Quiet env s)
    (hreg : Regular env s (.generator source o))
    (h : s.step env index (.generator source o) = some t) :
    Quiet env t := by
  rw [State.step] at h
  split_ifs at h with hdone
  obtain ⟨hpc, hframe⟩ := generator_step (o := o) (hs.generator source) hreg.freshCount fun hpc ↦ by
    rw [Regular, hpc] at hreg
    exact hreg
  generalize (s.generator source).step source o s.slot = r at h hpc hframe
  obtain ⟨pc, slot⟩ := r
  cases h
  refine ⟨⟨hs.request, hs.counted, hs.entered, hs.process, hs.client.frame (hframe.isSome .server),
    ?_, ?_, ?_, ?_⟩, ?_, ?_⟩
  · exact fun src ↦ (hframe.count src).trans (hs.count src)
  · exact fun p ↦ (congrFun hframe.piece p).trans (hs.piece p)
  · exact fun src ↦ (congrFun hframe.secret _).trans (hs.secret src)
  · exact (congrFun hframe.valid _).trans hs.valid
  · rcases hframe.running with heq | ⟨hpc, new, hnew, heq⟩
    · intro src other key key' hkey hkey'
      exact hs.same src other key key' ((congrFun heq src).symm.trans hkey)
        ((congrFun heq other).symm.trans hkey')
    · have hother (other : Source) (key : Bytes)
          (hkey : Function.update s.slot.running source (some new) other = some key) :
            key = new := by
        by_cases hne : other = source
        · rw [hne, Function.update_self] at hkey
          exact (Option.some.inj hkey).symm
        · rw [Function.update_of_ne hne] at hkey
          rw [Regular, hpc] at hreg
          exact (hreg other key hkey new hnew).symm
      intro src other key key' hkey hkey'
      rw [hother src key ((congrFun heq src).symm.trans hkey),
        hother other key' ((congrFun heq other).symm.trans hkey')]
  · intro src
    by_cases hsrc : src = source
    · subst hsrc
      dsimp only
      rw [Function.update_self]
      exact hpc
    · dsimp only
      rw [Function.update_of_ne hsrc]
      exact (hs.generator src).frame hframe hsrc

theorem Quiet.invariant (hs : Quiet env s) (index : Index)
    (htime : ∀ source, (s.slot.time source).isSome) :
    ∃ (K : Bytes) (W : WaitingSecret cfg env.crc32c),
      Invariant env index s.slot.time K W.bytes s := by
  have hgenerator (source : Source) : Prepared env s.slot source ∧
    Announced (s.generator source) := by
    have hat := hs.generator source
    have hsome := htime source
    cases hpc : s.generator source with
    | zaddCount => rw [hpc] at hat; exact ⟨hat hsome, trivial⟩
    | del => rw [hpc] at hat; exact ⟨hat hsome, trivial⟩
    | done => rw [hpc] at hat; exact ⟨hat hsome, trivial⟩
    | createTime =>
      rw [hpc] at hat
      rw [show s.slot.time source = none from hat] at hsome
      cases hsome
    | saveRunning =>
      rw [hpc] at hat
      rw [show s.slot.time source = none from hat] at hsome
      cases hsome
    | saveWaiting =>
      rw [hpc] at hat
      rw [hat.1] at hsome
      cases hsome
    | zaddTime =>
      rw [hpc] at hat
      rw [hat.1] at hsome
      cases hsome
  obtain ⟨K, hK⟩ := Option.isSome_iff_exists.mp (hgenerator .server).1.1
  obtain ⟨K', hK'⟩ := Option.isSome_iff_exists.mp (hgenerator .client).1.1
  obtain rfl := hs.same _ _ _ _ hK hK'
  obtain ⟨W, hW⟩ := (hgenerator .server).1.2 rfl
  refine ⟨K, W, hs.toUntransferred.invariant htime ?_ hW fun source ↦ (hgenerator source).2⟩
  intro source
  cases source with
  | server => exact hK
  | client => exact hK'

def State.fresh (cfg : Config) : State cfg where
  pool := ⟨Slot.empty, fun _ ↦ .createTime, [], []⟩
  generator _ := .createTime
  client := .pull .serverTime none
  process _ := .idle

theorem State.fresh_quiet (env : Env cfg) : Quiet env (State.fresh cfg) where
  request _ := rfl
  counted := rfl
  entered := rfl
  process _ := rfl
  client := trivial
  count _ := rfl
  piece _ := rfl
  secret _ := rfl
  valid := rfl
  same _ _ _ _ h := by cases h
  generator _ := rfl

/-- The index is generated on both sides and the client has not asked for it. -/
structure Published (env : Env cfg) (K content : Bytes) (s : State cfg) : Prop
    extends Untransferred env s where
  time : ∀ source, (s.slot.time source).getD 0 ≠ 0
  running : ∀ source, s.slot.running source = some K
  waiting : s.slot.waiting = some content
  generator : ∀ source, s.generator source = .done
  begin : s.client = .pull .serverTime none

theorem Published.isSome {content : Bytes} (h : Published env K content s) (source : Source) :
    (s.slot.time source).isSome := by
  have htime := h.time source
  cases hc : s.slot.time source with
  | none => exact absurd (by rw [hc]; rfl) htime
  | some createTime => rfl

theorem Published.invariant {content : Bytes} (h : Published env K content s) :
    Invariant env index s.slot.time K content s :=
  h.toUntransferred.invariant h.isSome h.running h.waiting fun source ↦ by
    rw [h.generator]
    trivial

theorem exists_published (env : Env cfg) (index : Index) (K : Bytes)
    (W : WaitingSecret cfg env.crc32c) :
    ∃ s, Reachable (State.step env index) (Regular env) (State.fresh cfg) s ∧
      Published env K W.bytes s := by
  let generateServer : Act cfg := .generator .server ⟨some K, some W.bytes, 1700000000⟩
  let generateClient : Act cfg := .generator .client ⟨some K, none, 1700000000⟩
  have hrun : Reachable (State.step env index) (Regular env) (State.fresh cfg) (State.fresh cfg) :=
    .start
  have hrun := hrun.next (a := generateServer) trivial rfl
  have hrun := hrun.next (a := generateServer) (fun _ _ hkey ↦ by cases hkey) rfl
  have hrun := hrun.next (a := generateServer) ⟨W, rfl⟩ rfl
  have hrun := hrun.next (a := generateServer) trivial rfl
  have hrun := hrun.next (a := generateServer) rfl rfl
  have hrun := hrun.next (a := generateServer) trivial rfl
  have hrun := hrun.next (a := generateClient) trivial rfl
  have hrun := hrun.next (a := generateClient) (fun other key hkey key' hkey' ↦ by
    cases other with
    | server => exact (Option.some.inj hkey').symm.trans (Option.some.inj hkey)
    | client => cases hkey) rfl
  have hrun := hrun.next (a := generateClient) trivial rfl
  have hrun := hrun.next (a := generateClient) rfl rfl
  refine ⟨_, hrun, ⟨⟨fun _ ↦ rfl, rfl, rfl, fun _ ↦ rfl, trivial, ?_, fun _ ↦ rfl, fun _ ↦ rfl,
    rfl⟩, ?_, ?_, rfl, ?_, rfl⟩⟩
  · intro source
    cases source <;> rfl
  · intro source
    cases source <;> exact Nat.succ_ne_zero _
  · intro source
    cases source <;> rfl
  · intro source
    cases source <;> rfl

end ShannonNet.Transfer
