import ShannonNet.Store
import ShannonNet.Utils.ReadFileSize

namespace ShannonNet.Server.ResultReport

open Utils

inductive Pc
  | createTime
  | zadd
  | secretExists
  | remove
  | done (res : Response Unit)

/-- One step of a report about the index of the slot; `none` when the request is over. -/
def Pc.step (nodeId isValid : ℕ) : Pc → Slot → Option (Pc × Slot)
  | createTime, s =>
    some (if (s.time .server).isSome then zadd
      else done ⟨500, "index error or not generated", ()⟩, s)
  | zadd, s =>
    if isValid = nodeSecretValid then
      some (done ⟨200, "valid success", ()⟩,
        { s with valid := Function.update s.valid nodeId (some nodeSecretValid) })
    else
      some (secretExists,
        { s with valid := Function.update s.valid nodeId (some nodeSecretInvalid) })
  | secretExists, s =>
    some (if (s.secret (.server, nodeId)).isSome then remove
      else done ⟨500, "current secret not exist", ()⟩, s)
  | remove, s =>
    some (done ⟨200, "success", ()⟩,
      { s with secret := Function.update s.secret (.server, nodeId) none })
  | done _, _ => none

end ShannonNet.Server.ResultReport
