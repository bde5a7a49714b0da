/-
The errors (`error.rs`) that the modelled requests return. Texts are those the source formats; `otherOf e` is
`Error::Other(e.to_string())`, which the local executors make of every error of the handler.
-/
import BigWorlds.Rpc.Context

namespace BigWorlds

inductive Error where
  | alreadyProcessedSignal (id : Uuid)
  | unexpectedResponse (resp : String)
  | other (text : String)
  | otherOf (e : Error)
  | networkError (text : String)
  | ioError (text : String)
  | tokioOneshotRecvError (text : String)
  | workerNotConnected (text : String)
  | workerNotInitialized (text : String)
  | leaderNotInitialized (text : String)
  | leaderNotConnected (text : String)
  | noAvailableWorkers
  | archiveDisabled
  | noEntityPrefab (name : String)
  | noComponentModel (name : String)
  | failedGettingEntityByName (name : String)
  | failedGettingVarFromEntityStorage (comp var : String)
deriving DecidableEq, Repr

end BigWorlds
