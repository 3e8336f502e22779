import QJazz.Msgpack.Value

/-! What the gateway sends to a worker process. A message is packed as a map: the number of its type
under `msg_id`, then its fields by name. -/
namespace QJazz.Rpc
open Msgpack

inductive HTTPMethod where
  | GET | HEAD | POST | PUT | DELETE | CONNECT | OPTIONS | TRACE | PATCH
deriving DecidableEq, Repr

/-- A method is packed as the name of its variant. -/
def HTTPMethod.name : HTTPMethod → String
  | .GET => "GET"
  | .HEAD => "HEAD"
  | .POST => "POST"
  | .PUT => "PUT"
  | .DELETE => "DELETE"
  | .CONNECT => "CONNECT"
  | .OPTIONS => "OPTIONS"
  | .TRACE => "TRACE"
  | .PATCH => "PATCH"

abbrev Headers := List (String × String)

namespace Gateway

structure OwsRequestMsg where
  service : String
  request : String
  target : String
  url : Option String
  version : Option String
  direct : Bool
  options : Option String
  headers : Headers
  requestId : Option String
  headerPrefix : Option String
  contentType : Option String
  method : Option HTTPMethod
  body : Option (List UInt8)
  sendReport : Bool

structure ApiRequestMsg where
  name : String
  path : String
  method : HTTPMethod
  url : Option String
  data : Option (List UInt8)
  delegate : Bool
  target : Option String
  direct : Bool
  options : Option String
  headers : Headers
  requestId : Option String
  headerPrefix : Option String
  contentType : Option String
  sendReport : Bool

structure CollectionsMsg where
  location : Option String
  resource : Option String
  start : ℤ
  stop : ℤ

inductive Message where
  | ping (echo : String)
  | owsRequest (m : OwsRequestMsg)
  | apiRequest (m : ApiRequestMsg)
  | checkoutProject (uri : String) (pull : Bool)
  | dropProject (uri : String)
  | clearCache
  | listCache
  | updateCache
  | getProjectInfo (uri : String)
  | plugins
  | catalog (location : Option String)
  | putConfig (config : Json)
  | getConfig
  | getEnv
  | sleep (delay : ℤ)
  | collections (m : CollectionsMsg)

def Message.msgId : Message → ℤ
  | .ping _ => 1
  | .owsRequest _ => 4
  | .apiRequest _ => 5
  | .checkoutProject _ _ => 6
  | .dropProject _ => 7
  | .clearCache => 8
  | .listCache => 9
  | .updateCache => 10
  | .getProjectInfo _ => 11
  | .plugins => 12
  | .catalog _ => 13
  | .putConfig _ => 14
  | .getConfig => 15
  | .getEnv => 16
  | .sleep _ => 18
  | .collections _ => 19

def text : Option String → Value := .ofOption .str

def headerList (hs : Headers) : Value := .arr (hs.map fun h => .arr [.str h.1, .str h.2])

def OwsRequestMsg.fields (m : OwsRequestMsg) : List (String × Value) :=
  [("service", .str m.service), ("request", .str m.request), ("target", .str m.target),
    ("url", text m.url), ("version", text m.version), ("direct", .bool m.direct),
    ("options", text m.options), ("headers", headerList m.headers),
    ("request_id", text m.requestId), ("header_prefix", text m.headerPrefix),
    ("content_type", text m.contentType),
    ("method", .ofOption (fun me : HTTPMethod => .str me.name) m.method),
    ("body", .ofOption .bin m.body), ("send_report", .bool m.sendReport)]

def ApiRequestMsg.fields (m : ApiRequestMsg) : List (String × Value) :=
  [("name", .str m.name), ("path", .str m.path), ("method", .str m.method.name),
    ("url", text m.url), ("data", .ofOption .bin m.data), ("delegate", .bool m.delegate),
    ("target", text m.target), ("direct", .bool m.direct), ("options", text m.options),
    ("headers", headerList m.headers), ("request_id", text m.requestId),
    ("header_prefix", text m.headerPrefix), ("content_type", text m.contentType),
    ("send_report", .bool m.sendReport)]

def Message.fields : Message → List (String × Value)
  | .ping echo => [("echo", .str echo)]
  | .owsRequest m => m.fields
  | .apiRequest m => m.fields
  | .checkoutProject uri pull => [("uri", .str uri), ("pull", .bool pull)]
  | .dropProject uri | .getProjectInfo uri => [("uri", .str uri)]
  | .clearCache | .listCache | .updateCache | .plugins | .getConfig | .getEnv => []
  | .catalog location => [("location", text location)]
  | .putConfig config => [("config", .ofJson config)]
  | .sleep delay => [("delay", .int delay)]
  | .collections m => [("location", text m.location), ("resource", text m.resource),
      ("start", .int m.start), ("end", .int m.stop)]

def Message.encode (m : Message) : Value := .map (("msg_id", .int m.msgId) :: m.fields)

end Gateway

end QJazz.Rpc
