import ShannonNet.Server.Handlers

namespace ShannonNet.Client.NodePair

open Utils Server

structure GenSecretDto where
  nodeId : UInt8
  randomNum : UInt32
  index : Str

/-- What `GenSecretPostDto::createShared()` posts. -/
def genSecretPost (clientNode : UInt16) : GenSecretPostDto := ⟨.value clientNode⟩

/-- The message and the response of a `genSecret` that has drawn `randomStr`, on a server whose
`SERVER_NODE` is `serverNode`; `none` is the failed `LOG_ASSERT`. -/
def genSecret (serverNode : UInt16) (body : GenSecretPostDto) (randomNum : UInt32)
    (randomStr : Str) : Option (Message × GenSecretDto) :=
  let nodeId := nodeIdOf body.nodeIdArg
  if nodeId > 0 then
    some (⟨.server, randomNum.toNat, randomStr, serverNode.toNat, nodeId⟩,
      ⟨serverNode.toUInt8, randomNum, randomStr⟩)
  else none

/-- The locals of `clientRun` under `// Dto`. -/
structure Locals where
  serverNodeId : UInt16
  randomNum : UInt32
  index : Str

def readResponse (genSecretDto : GenSecretDto) : Locals :=
  let dto : Locals := ⟨genSecretDto.nodeId.toUInt16, genSecretDto.randomNum, genSecretDto.index⟩
  { dto with serverNodeId := 0 }

def jsonData (clientNode : UInt16) (dto : Locals) : Message :=
  ⟨.client, dto.randomNum.toNat, dto.index, dto.serverNodeId.toNat, clientNode.toNat⟩

/-- `boost::format("node_%d_%d")`, and with `%u` the same. -/
def nodeFmt (serverNodeId clientNodeId : ℕ) : Str :=
  ['n', 'o', 'd', 'e', '_'] ++ Nat.toDigits 10 serverNodeId ++ '_' :: Nat.toDigits 10 clientNodeId

/-- The directory under `secrets/` that the generator reads for a message. -/
def generatorDir (msg : Message) : Str := nodeFmt msg.serverNodeId msg.clientNodeId

/-- The directory `clientRun` lets `Decrypt` save into. -/
def clientDir (clientNode : UInt16) (dto : Locals) : Str :=
  nodeFmt dto.serverNodeId.toNat clientNode.toNat

/-- The directory of `getData` and `resultReport` for a body with the client's default. -/
def serverDir (serverNode clientNode : UInt16) : Str :=
  nodeFmt serverNode.toNat (nodeIdOf (.value clientNode))

/-- At the configured node this is the end of the handler, if `set` and `lpush` do not fail. -/
theorem handler_genSecret {fuel : ℕ} {randomStr : ℕ → Str} (randomNum : UInt32) {f : Faults}
    {body : GenSecretPostDto} {w : World} {x : Str} (hbody : body.Passes f)
    (hx : generateIndex f w randomStr fuel 0 = .found x) (hset : f.thrown .set = none)
    (hsetOk : f.setOk) (hlpush : f.thrown .lpush = none) (hpushOk : f.pushOk) :
    ∃ server, genSecret (UInt16.ofNat ShannonNet.serverNode) body randomNum x = some server ∧
      (Server.genSecret fuel randomStr randomNum.toNat f body w).2.queue = server.1 :: w.queue ∧
      (Server.genSecret fuel randomStr randomNum.toNat f body w).1 =
        .response ⟨200, "success",
          some ⟨server.2.nodeId.toNat, server.2.randomNum.toNat, server.2.index⟩⟩ := by
  have hrun : Server.genSecret fuel randomStr randomNum.toNat f body w =
      (.response ⟨200, "success", some ⟨ShannonNet.serverNode, randomNum.toNat, x⟩⟩,
        (w.setSlot x { w.slot x with lock := some ['1'] }).lpush
          ⟨.server, randomNum.toNat, x, ShannonNet.serverNode, nodeIdOf body.nodeIdArg⟩) := by
    rw [genSecret_answers hbody hx, Faults.write_returns hset, if_pos hsetOk, if_pos hsetOk,
      Faults.write_returns hlpush, if_pos hpushOk, if_pos hpushOk]
  rw [hrun]
  exact ⟨_, if_pos hbody.2, rfl, rfl⟩

/-- The two messages of one exchange, and the two sides' directories, agree exactly for the server
node 0, which `clientRun` assigns in place of the one it was sent. -/
theorem same_pair_iff (serverNode clientNode : UInt16) (hclient : 0 < clientNode)
    (randomNum : UInt32) (index : Str) :
    ∃ server, genSecret serverNode (genSecretPost clientNode) randomNum index = some server ∧
      let dto := readResponse server.2
      let client := jsonData clientNode dto
      (client.randomNum = server.1.randomNum ∧ client.index = server.1.index ∧
        client.serverNodeId = server.1.serverNodeId ∧
        client.clientNodeId = server.1.clientNodeId ∧
        generatorDir client = generatorDir server.1 ∧
        clientDir clientNode dto = serverDir serverNode clientNode ↔ serverNode = 0) := by
  have hpos : nodeIdOf (genSecretPost clientNode).nodeIdArg > 0 := UInt16.lt_iff_toNat_lt.mp hclient
  refine ⟨_, if_pos hpos, ?_⟩
  constructor
  · rintro ⟨-, -, hserver, -⟩
    exact UInt16.toNat_inj.mp hserver.symm
  · rintro rfl
    exact ⟨rfl, rfl, rfl, rfl, rfl, rfl⟩

theorem same_pair_iff_one :
    ∃ server, genSecret 1 (genSecretPost 1) 7 ['a'] = some server ∧
      let dto := readResponse server.2
      let client := jsonData 1 dto
      (client.randomNum = server.1.randomNum ∧ client.index = server.1.index ∧
        client.serverNodeId = server.1.serverNodeId ∧
        client.clientNodeId = server.1.clientNodeId ∧
        generatorDir client = generatorDir server.1 ∧
        clientDir 1 dto = serverDir 1 1 ↔ (1 : UInt16) = 0) :=
  same_pair_iff 1 1 (by decide) 7 ['a']

theorem second_node_differs :
    ¬∀ serverNode clientNode : UInt16, 0 < clientNode → ∀ (randomNum : UInt32) (index : Str),
      ∃ server, genSecret serverNode (genSecretPost clientNode) randomNum index = some server ∧
        (jsonData clientNode (readResponse server.2)).serverNodeId = server.1.serverNodeId := by
  intro h
  obtain ⟨server, hserver, heq⟩ := h 1 1 (by decide) 0 []
  obtain rfl := Option.some.inj hserver
  exact absurd heq (by decide)

end ShannonNet.Client.NodePair
