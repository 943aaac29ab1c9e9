import ShannonNet.InitSecrets
import ShannonNet.Layout.Commands
import ShannonNet.Server.Handlers

namespace ShannonNet.Layout

open Library Library.Redis InitSecrets Server Utils

section Run

variable (initSecrets : List Str) (timeStamp : ℕ)

/-- `none` is the `LOG_IF(FATAL, !redis.zadd(..))`. -/
def zaddTime (name : Source) (w : Flat) (secretFile : Str) : Option Flat :=
  (w.command (.zset (.time name)) (Redis.zadd (Path.stem secretFile) timeStamp)).bind fun r ↦
    if r.1 = 0 then none else some r.2

/-- The loop over the nodes does not look at the answer. -/
def zaddValid (nodeId : ℕ) (w : Flat) (secretFile : Str) : Option Flat :=
  (w.command (.zset (.valid nodeId)) (Redis.zadd (Path.stem secretFile) nodeSecretValid)).map
    Prod.snd

def namePhase (w : Flat) (name : Source) : Option Flat :=
  (w.command (.zset (.time name)) Redis.del).bind fun r ↦
    (initSecrets.foldlM (zaddTime timeStamp name) r.2).bind fun w ↦
      (w.command (.zset (.count name)) Redis.del).map Prod.snd

def nodePhase (w : Flat) (nodeId : ℕ) : Option Flat :=
  (w.command (.zset (.valid nodeId)) Redis.del).bind fun r ↦
    initSecrets.foldlM (zaddValid nodeId) r.2

/-- The values of `nodeIdMap`, whose one key is `SERVER_NODE`. -/
def nodeIds : List ℕ := [clientNode.toNat]

/-- `run()` of the initialisation from its Redis part on. -/
def initRedis (w : Flat) : Option Flat :=
  (w.command .list Redis.del).bind fun r ↦
    (initName.foldlM (namePhase initSecrets timeStamp) r.2).bind fun w ↦
      nodeIds.foldlM (nodePhase initSecrets) w

end Run

/-- A sorted set after one score for each of `members`. -/
structure Added (members : List Index) (n : ℕ) (v v' : Option (Value Str Message Index)) :
    Prop where
  fits : Fits .zset v'
  score : ∀ x, scoreOf v' x = if members.contains x then some n else scoreOf v x

variable {w : Flat} {v : Option (Value Str Message Index)}

theorem Flat.setRedis_setRedis (e : Entry) (v' : Option (Value Str Message Index)) :
    (w.setRedis e v).setRedis e v' = w.setRedis e v' := by
  simp only [setRedis, Function.update_idem]

theorem Flat.setRedis_redis_self (e : Entry) : (w.setRedis e v).redis e.key = v :=
  Function.update_self ..

theorem Added.nil (n : ℕ) (h : Fits .zset v) : Added [] n v v := ⟨h, fun _ ↦ rfl⟩

theorem Added.cons {members : List Index} {n : ℕ} {v' : Option (Value Str Message Index)}
    {m : Index}
    (h : Added members n (some (.zset (Function.update (scoreOf v) m (some n)))) v') :
    Added (m :: members) n v v' where
  fits := h.fits
  score x := by
    rw [h.score, List.contains_cons]
    by_cases hx : x = m
    · subst hx
      simp [scoreOf]
    · simp [scoreOf, hx]

theorem zadd_setRedis (z : Zset) (m : Index) (n : ℕ) (h : Fits .zset v) :
    (w.setRedis (.zset z) v).command (.zset z) (Redis.zadd m n) =
      some (if (scoreOf v m).isSome then 0 else 1, w.setRedis (.zset z)
        (some (.zset (Function.update (scoreOf v) m (some n))))) := by
  have hredis : (w.setRedis (.zset z) v).redis (Entry.zset z).key = v :=
    Flat.setRedis_redis_self _
  have hfits : Fits .zset ((w.setRedis (.zset z) v).redis (Entry.zset z).key) := by rwa [hredis]
  rw [Flat.command_eq (zadd_eq m n hfits), Flat.setRedis_setRedis, hredis]

theorem zaddValid_spec (nodeId : ℕ) (initSecrets : List Str) (h : Fits .zset v) :
    ∃ v', initSecrets.foldlM (zaddValid nodeId) (w.setRedis (.zset (.valid nodeId)) v) =
        some (w.setRedis (.zset (.valid nodeId)) v') ∧
      Added (initSecrets.map Path.stem) nodeSecretValid v v' := by
  induction initSecrets generalizing v with
  | nil => exact ⟨v, rfl, .nil _ h⟩
  | cons secretFile rest ih =>
    obtain ⟨v', hrest, hadded⟩ := ih (v := some (.zset (Function.update (scoreOf v)
      (Path.stem secretFile) (some nodeSecretValid)))) fits_some
    refine ⟨v', ?_, hadded.cons⟩
    rw [List.foldlM_cons, zaddValid, zadd_setRedis _ _ _ h]
    exact hrest

theorem forall_update_eq_none {score : Index → Option ℕ} {m : Index} {n : ℕ}
    {members : List Index} :
    (∀ x ∈ members, Function.update score m (some n) x = none) ↔
      m ∉ members ∧ ∀ x ∈ members, score x = none := by
  constructor
  · intro h
    have hm : m ∉ members := fun hmem ↦ by simpa using h m hmem
    refine ⟨hm, fun x hx ↦ ?_⟩
    rw [← h x hx, Function.update_of_ne (ne_of_mem_of_not_mem hx hm)]
  · rintro ⟨hm, h⟩ x hx
    rw [Function.update_of_ne (ne_of_mem_of_not_mem hx hm), h x hx]

/-- Each member has to be new to the sorted set. -/
theorem zaddTime_spec (timeStamp : ℕ) (name : Source) (initSecrets : List Str)
    (h : Fits .zset v) :
    ∃ v', Added (initSecrets.map Path.stem) timeStamp v v' ∧ ∀ w',
      initSecrets.foldlM (zaddTime timeStamp name) (w.setRedis (.zset (.time name)) v) = some w' ↔
        w' = w.setRedis (.zset (.time name)) v' ∧ (initSecrets.map Path.stem).Nodup ∧
          ∀ m ∈ initSecrets.map Path.stem, scoreOf v m = none := by
  induction initSecrets generalizing v with
  | nil => exact ⟨v, .nil _ h, fun w' ↦ by simp [eq_comm]⟩
  | cons secretFile rest ih =>
    obtain ⟨v', hadded, hrest⟩ := ih (v := some (.zset (Function.update (scoreOf v)
      (Path.stem secretFile) (some timeStamp)))) fits_some
    refine ⟨v', hadded.cons, fun w' ↦ ?_⟩
    have hzset (score : Index → Option ℕ) :
        scoreOf (some (Value.zset (β := Str) (ε := Message) score)) = score := rfl
    rw [List.foldlM_cons, zaddTime, zadd_setRedis _ _ _ h, Option.bind_some, List.map_cons,
      List.nodup_cons, List.forall_mem_cons]
    cases hscore : scoreOf v (Path.stem secretFile) with
    | some n => simp
    | none =>
      refine (hrest w').trans ?_
      rw [hzset, forall_update_eq_none]
      tauto

/-- What `run` has replaced: the two scores of its own secrets are all there is, and the validity
of another node, the locks and the files are what they were. -/
structure Reset (members : List Index) (timeStamp : ℕ) (w w' : Flat) : Prop where
  files : w'.files = w.files
  queue : w'.queue = []
  lock : ∀ x, IsIndex x → w'.redis (Entry.lock x).key = w.redis (Entry.lock x).key
  time : ∀ source x,
    w'.score (.time source) x = if members.contains x then some timeStamp else none
  count : ∀ source x, w'.score (.count source) x = none
  valid : ∀ x, w'.score (.valid clientNode.toNat) x =
    if members.contains x then some nodeSecretValid else none
  valid_of_ne : ∀ nodeId, nodeId ≠ clientNode.toNat →
    w'.redis (Entry.zset (.valid nodeId)).key = w.redis (Entry.zset (.valid nodeId)).key
  typed : w'.Typed ↔ (∀ x, IsIndex x → Fits .string (w.redis (Entry.lock x).key)) ∧
    ∀ nodeId, nodeId ≠ clientNode.toNat → Fits .zset (w.redis (Entry.zset (.valid nodeId)).key)

theorem del_command (e : Entry) : w.command e Redis.del = some ((), w.setRedis e none) :=
  Flat.command_eq rfl

/-- The two sorted sets of a name after its round of the loop. -/
def Flat.setName (w : Flat) (name : Source) (v : Option (Value Str Message Index)) : Flat :=
  (w.setRedis (.zset (.time name)) v).setRedis (.zset (.count name)) none

theorem namePhase_spec (initSecrets : List Str) (timeStamp : ℕ) (w : Flat) (name : Source) :
    ∃ v, Added (initSecrets.map Path.stem) timeStamp none v ∧ ∀ w',
      namePhase initSecrets timeStamp w name = some w' ↔
        w' = w.setName name v ∧ (initSecrets.map Path.stem).Nodup := by
  obtain ⟨v, hadded, hfold⟩ :=
    zaddTime_spec (w := w) timeStamp name initSecrets (v := none) fits_none
  refine ⟨v, hadded, fun w' ↦ ?_⟩
  simp only [namePhase, del_command, Option.bind_some, Option.map_some, Option.bind_eq_some_iff,
    hfold, Option.some_inj]
  constructor
  · rintro ⟨_, ⟨rfl, hnodup, -⟩, rfl⟩
    exact ⟨rfl, hnodup⟩
  · rintro ⟨rfl, hnodup⟩
    exact ⟨_, ⟨rfl, hnodup, fun _ _ ↦ rfl⟩, rfl⟩

theorem nodePhase_spec (initSecrets : List Str) (w : Flat) (nodeId : ℕ) :
    ∃ v, Added (initSecrets.map Path.stem) nodeSecretValid none v ∧
      nodePhase initSecrets w nodeId = some (w.setRedis (.zset (.valid nodeId)) v) := by
  obtain ⟨v, hfold, hadded⟩ :=
    zaddValid_spec (w := w) nodeId initSecrets (v := none) fits_none
  refine ⟨v, hadded, ?_⟩
  rw [nodePhase, del_command]
  exact hfold

/-- What the program finds under its keys after `run`. -/
theorem Reset.of_redis {members : List Index} {timeStamp : ℕ} {w w' : Flat}
    (hfiles : w'.files = w.files)
    (hlock : ∀ x, IsIndex x → w'.redis (Entry.lock x).key = w.redis (Entry.lock x).key)
    (hlist : w'.redis Entry.list.key = none)
    (htime : ∀ source,
      Added members timeStamp none (w'.redis (Entry.zset (.time source)).key))
    (hcount : ∀ source, w'.redis (Entry.zset (.count source)).key = none)
    (hvalid : Added members nodeSecretValid none
      (w'.redis (Entry.zset (.valid clientNode.toNat)).key))
    (hother : ∀ nodeId, nodeId ≠ clientNode.toNat →
      w'.redis (Entry.zset (.valid nodeId)).key = w.redis (Entry.zset (.valid nodeId)).key) :
    Reset members timeStamp w w' where
  files := hfiles
  queue := by
    rw [Flat.queue, hlist]
    rfl
  lock := hlock
  time source x := (htime source).score x
  count source x := by
    rw [Flat.score, hcount]
    rfl
  valid x := hvalid.score x
  valid_of_ne := hother
  typed := by
    constructor
    · intro h
      refine ⟨fun x hx ↦ ?_, fun nodeId hne ↦ ?_⟩
      · rw [← hlock x hx]
        exact h (.lock x) hx
      · rw [← hother nodeId hne]
        exact h (.zset (.valid nodeId)) trivial
    · rintro ⟨hlocks, hothers⟩ e he
      cases e with
      | lock x => exact (hlock x he).symm ▸ hlocks x he
      | list => exact hlist.symm ▸ fits_none
      | zset z =>
        cases z with
        | time source => exact (htime source).fits
        | count source => exact (hcount source).symm ▸ fits_none
        | valid nodeId =>
          by_cases hnode : nodeId = clientNode.toNat
          · subst hnode
            exact hvalid.fits
          · exact (hother nodeId hnode).symm ▸ hothers nodeId hnode

theorem initRedis_spec (initSecrets : List Str) (timeStamp : ℕ) (w : Flat) :
    ∃ w₁, Reset (initSecrets.map Path.stem) timeStamp w w₁ ∧ ∀ w',
      initRedis initSecrets timeStamp w = some w' ↔
        w' = w₁ ∧ (initSecrets.map Path.stem).Nodup := by
  obtain ⟨v, hserver, hserverPhase⟩ :=
    namePhase_spec initSecrets timeStamp (w.setRedis .list none) .server
  obtain ⟨v', hclient, hclientPhase⟩ :=
    namePhase_spec initSecrets timeStamp ((w.setRedis .list none).setName .server v) .client
  obtain ⟨v'', hnode, hnodePhase⟩ := nodePhase_spec initSecrets
    (((w.setRedis .list none).setName .server v).setName .client v') clientNode.toNat
  have hzset (z : Zset) : (Entry.zset z).Proper := trivial
  have hlist : Entry.list.Proper := trivial
  refine ⟨(((w.setRedis .list none).setName .server v).setName .client v').setRedis
    (.zset (.valid clientNode.toNat)) v'', .of_redis rfl ?_ ?_ ?_ ?_ ?_ ?_, fun w' ↦ ?_⟩
  · intro x hx
    simp [Flat.setName, Flat.setRedis_redis, hzset, hlist, show (Entry.lock x).Proper from hx]
  · simp [Flat.setName, Flat.setRedis_redis, hzset, hlist]
  · intro source
    cases source <;> simpa [Flat.setName, Flat.setRedis_redis, hzset]
  · intro source
    cases source <;> simp [Flat.setName, Flat.setRedis_redis, hzset]
  · simpa [Flat.setRedis_redis, hzset]
  · intro nodeId hne
    simp [Flat.setName, Flat.setRedis_redis, hzset, hlist, hne]
  · simp only [initRedis, del_command, Option.bind_some, initName, nodeIds, List.foldlM_cons,
      List.foldlM_nil, Option.bind_eq_bind, Option.bind_eq_some_iff, Option.pure_def,
      Option.some_inj, hserverPhase]
    constructor
    · rintro ⟨_, ⟨_, ⟨rfl, hnodup⟩, _, hphase, rfl⟩, w', hrun, rfl⟩
      obtain ⟨rfl, -⟩ := (hclientPhase _).mp hphase
      rw [hnodePhase] at hrun
      cases hrun
      exact ⟨rfl, hnodup⟩
    · rintro ⟨rfl, hnodup⟩
      exact ⟨_, ⟨_, ⟨rfl, hnodup⟩, _, (hclientPhase _).mpr ⟨rfl, hnodup⟩, rfl⟩, _, hnodePhase, rfl⟩

/-- The Redis part of `run` goes through, whatever a former run has left, unless two of its secrets
have one stem, and no index of that run is left in the queue or in a sorted set of the pair. -/
theorem init_resets (initSecrets : List Str) (timeStamp : ℕ) (w : Flat) :
    ((initRedis initSecrets timeStamp w).isSome ↔ (initSecrets.map Path.stem).Nodup) ∧
      ∀ w', initRedis initSecrets timeStamp w = some w' →
        Reset (initSecrets.map Path.stem) timeStamp w w' := by
  obtain ⟨w₁, hreset, hrun⟩ := initRedis_spec initSecrets timeStamp w
  refine ⟨?_, fun w' h ↦ ((hrun w').mp h).1 ▸ hreset⟩
  rw [Option.isSome_iff_exists]
  simp only [hrun, exists_eq_left]

/-- No index of the generator is one of the two secrets of `run`. -/
example : ["secret_1.bin".toList, "secret_2.bin".toList].map Path.stem =
    ["secret_1".toList, "secret_2".toList] ∧ ¬IsIndex "secret_1".toList ∧
      ¬IsIndex "secret_2".toList := by decide

end ShannonNet.Layout
