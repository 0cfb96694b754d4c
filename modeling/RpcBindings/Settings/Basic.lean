import RpcBindings.Casing
import RpcBindings.Go.TypeTable
import RpcBindings.Namespace

/-!
Settings: the dialect of Go that is generated.

Every setting has a standard value, so `{}` is the standard settings.
-/

namespace RpcBindings

namespace Settings

def sdkTypes : String := "github.com/Conflux-Chain/go-conflux-sdk/types"

def hexutil : String := "github.com/ethereum/go-ethereum/common/hexutil"

def common : String := "github.com/ethereum/go-ethereum/common"

/-- The packages that the standard type table refers to. -/
def typeImports : List String := [sdkTypes, common, hexutil]

end Settings

/-- Settings for client stubs. -/
structure ClientSettings where
  package : String := "client"
  /-- Imports to choose from, as specs; those that are not used are dropped. -/
  imports : List String := Settings.typeImports
  /-- The receiver of the stubs. -/
  receiver : String := "c"
  /-- The field of a client that holds its core. -/
  coreField : String := "core"
  coreType : String := "ClientCore"
  /-- The method of the core that makes a synchronous call. -/
  invoke : String := "CallRPC"
  typePrefix : String := "Rpc"
  typeSuffix : String := "Client"
  /-- Generic types around the results of methods. -/
  resultWrappers : List String := ["JsonRpcResult", "RpcResult", "Result", "BoxFuture"]
  deriving DecidableEq, Repr

/-- Settings for structs. -/
structure StructSettings where
  package : String := "types"
  imports : List String := Settings.typeImports
  deriving DecidableEq, Repr

/-- Settings for batch callers. -/
structure BulkSettings where
  package : String := "bulk"
  /-- Imports besides those of the client file. -/
  imports : List String :=
    ["github.com/Conflux-Chain/go-conflux-sdk/interfaces",
      "github.com/Conflux-Chain/go-conflux-sdk/rpc", Settings.sdkTypes, Settings.hexutil]
  /-- The methods that make synchronous calls in a client file. -/
  primitives : List String := ["wrappedCallRPC", "CallRPC"]
  clientPrefix : String := "Rpc"
  clientSuffix : String := "Client"
  callerPrefix : String := "Bulk"
  callerSuffix : String := "Caller"
  /-- The type that sends batches. -/
  callerCoreType : String := "interfaces.RpcCallerCore"
  queueElemType : String := "rpc.BatchElem"
  queueField : String := "batchElems"
  /-- The function that makes one element of the queue. -/
  descriptorFn : String := "newBatchElem"
  /-- The function that sends the queue. -/
  executeFn : String := "batchCall"
  /-- Functions that go into the output as they are. -/
  extraFunctions : List String := []
  deriving DecidableEq, Repr

/-- All settings. -/
structure Settings where
  /-- Go types by schema name, in increasing order of names. -/
  types : List (String × String) := []
  client : ClientSettings := {}
  structs : StructSettings := {}
  bulk : BulkSettings := {}
  deriving DecidableEq, Repr

/-- The client type that serves a namespace. -/
def ClientSettings.typeName (s : ClientSettings) (nspace : String) : String :=
  s.typePrefix ++ Casing.upperCamel nspace ++ s.typeSuffix

/-- The batch caller for a client type. -/
def BulkSettings.callerName (s : BulkSettings) (clientType : String) : String :=
  Namespace.swapAffixes clientType s.clientPrefix s.clientSuffix s.callerPrefix s.callerSuffix

/-- The standard type table with the types of the settings. -/
def Settings.typeTable (s : Settings) : TypeTable :=
  TypeTable.standard.withOverrides s.types

end RpcBindings
