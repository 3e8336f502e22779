import QJazz.Rpc.Messages.Gateway

/-! The number under `msg_id` selects the type, and the fields are validated one by one; a field
that is not of its type rejects the message. -/
namespace QJazz.Rpc
open Msgpack

def HTTPMethod.value : HTTPMethod → String
  | .GET => "GET"
  | .HEAD => "HEAD"
  | .POST => "POST"
  | .PUT => "PUT"
  | .DELETE => "DELATE"
  | .CONNECT => "CONNECT"
  | .OPTIONS => "OPTIONS"
  | .TRACE => "TRACE"
  | .PATCH => "PATCH"

def HTTPMethod.all : List HTTPMethod :=
  [.GET, .HEAD, .POST, .PUT, .DELETE, .CONNECT, .OPTIONS, .TRACE, .PATCH]

namespace Worker

inductive MsgType where
  | PING | QUIT | OWSREQUEST | APIREQUEST | CHECKOUT_PROJECT | DROP_PROJECT | CLEAR_CACHE
  | LIST_CACHE | UPDATE_CACHE | PROJECT_INFO | PLUGINS | CATALOG | PUT_CONFIG | GET_CONFIG | ENV
  | STATS | SLEEP | COLLECTIONS
deriving DecidableEq, Repr

def MsgType.ofInt : ℤ → Option MsgType
  | 1 => some .PING
  | 2 => some .QUIT
  | 4 => some .OWSREQUEST
  | 5 => some .APIREQUEST
  | 6 => some .CHECKOUT_PROJECT
  | 7 => some .DROP_PROJECT
  | 8 => some .CLEAR_CACHE
  | 9 => some .LIST_CACHE
  | 10 => some .UPDATE_CACHE
  | 11 => some .PROJECT_INFO
  | 12 => some .PLUGINS
  | 13 => some .CATALOG
  | 14 => some .PUT_CONFIG
  | 15 => some .GET_CONFIG
  | 16 => some .ENV
  | 17 => some .STATS
  | 18 => some .SLEEP
  | 19 => some .COLLECTIONS
  | _ => none

structure OwsRequestMsg where
  service : String
  request : String
  target : String
  url : Option String
  version : Option String
  direct : Bool
  options : Option String
  headers : Headers
  requestId : Option String
  headerPrefix : Option String
  contentType : Option String
  method : Option HTTPMethod
  body : Option (List UInt8)
  sendReport : Bool

structure ApiRequestMsg where
  name : String
  path : String
  method : HTTPMethod
  url : String
  data : Option (List UInt8)
  delegate : Bool
  target : Option String
  direct : Bool
  options : Option String
  headers : Headers
  requestId : Option String
  headerPrefix : Option String
  contentType : Option String
  sendReport : Bool

structure CollectionsMsg where
  location : Option String
  resource : Option String
  start : ℤ
  stop : ℤ

inductive Config where
  | dict (fields : Fields)
  | text (s : String)

inductive CheckoutStatus where
  | UNCHANGED | NEEDUPDATE | REMOVED | NOTFOUND | NEW | UPDATED
deriving DecidableEq, Repr

inductive Message where
  | owsRequest (m : OwsRequestMsg)
  | apiRequest (m : ApiRequestMsg)
  | collections (m : CollectionsMsg)
  | ping (echo : Option String)
  | quit
  | checkoutProject (uri : String) (pull : Bool)
  | dropProject (uri : String)
  | clearCache
  | listCache (statusFilter : Option CheckoutStatus)
  | updateCache
  | plugins
  | getProjectInfo (uri : String)
  | getConfig
  | putConfig (config : Option Config)
  | catalog (location : Option String)
  | getEnv
  | sleep (delay : ℤ)

open Decoder

def text : Decoder (Option String) := optional str

def headerList : Decoder Headers := list (pair str str)

def httpMethod : Decoder HTTPMethod := enum (HTTPMethod.all.map fun m => (m.value, m))

def config : Decoder Config
  | .map fields => some (.dict fields)
  | .str s => some (.text s)
  | _ => none

def checkoutStatus : Decoder CheckoutStatus
  | .int 0 => some .UNCHANGED
  | .int 1 => some .NEEDUPDATE
  | .int 2 => some .REMOVED
  | .int 3 => some .NOTFOUND
  | .int 4 => some .NEW
  | .int 5 => some .UPDATED
  | _ => none

def OwsRequestMsg.validate (fields : Fields) : Option OwsRequestMsg := do
  let service ← required "service" str fields
  let request ← required "request" str fields
  let target ← required "target" str fields
  let url ← required "url" text fields
  let version ← field "version" text none fields
  let direct ← field "direct" bool false fields
  let options ← field "options" text none fields
  let headers ← field "headers" headerList [] fields
  let requestId ← field "request_id" text none fields
  let headerPrefix ← field "header_prefix" text none fields
  let contentType ← field "content_type" text none fields
  let method ← field "method" (optional httpMethod) none fields
  let body ← field "body" (optional bytes) none fields
  let sendReport ← field "send_report" bool false fields
  return {
    service := service, request, target, url, version, direct, options, headers, requestId
    headerPrefix, contentType, method, body, sendReport }

def ApiRequestMsg.validate (fields : Fields) : Option ApiRequestMsg := do
  let name ← required "name" str fields
  let path ← required "path" str fields
  let method ← required "method" httpMethod fields
  let url ← field "url" str "/" fields
  let data ← field "data" (optional bytes) none fields
  let delegate ← field "delegate" bool false fields
  let target ← field "target" text none fields
  let direct ← field "direct" bool false fields
  let options ← field "options" text none fields
  let headers ← field "headers" headerList [] fields
  let requestId ← field "request_id" text none fields
  let headerPrefix ← field "header_prefix" text none fields
  let contentType ← field "content_type" text none fields
  let sendReport ← field "send_report" bool false fields
  return {
    name := name, path, method, url, data, delegate, target, direct, options, headers, requestId
    headerPrefix, contentType, sendReport }

def CollectionsMsg.validate (fields : Fields) : Option CollectionsMsg := do
  let location ← field "location" text none fields
  let resource ← field "resource" text none fields
  let start ← field "start" int 0 fields
  let stop ← field "end" int 50 fields
  return { location := location, resource, start, stop }

/-- The type selected by the discriminator validates the fields. `STATS` has no message. -/
def Message.validate (fields : Fields) : MsgType → Option Message
  | .PING => (field "echo" text none fields).map .ping
  | .QUIT => some .quit
  | .OWSREQUEST => (OwsRequestMsg.validate fields).map .owsRequest
  | .APIREQUEST => (ApiRequestMsg.validate fields).map .apiRequest
  | .CHECKOUT_PROJECT => do
    let uri ← required "uri" str fields
    let pull ← field "pull" bool false fields
    return .checkoutProject uri pull
  | .DROP_PROJECT => (required "uri" str fields).map .dropProject
  | .CLEAR_CACHE => some .clearCache
  | .LIST_CACHE => (field "status_filter" (optional checkoutStatus) none fields).map .listCache
  | .UPDATE_CACHE => some .updateCache
  | .PROJECT_INFO => (required "uri" str fields).map .getProjectInfo
  | .PLUGINS => some .plugins
  | .CATALOG => (field "location" text none fields).map .catalog
  | .PUT_CONFIG => (field "config" (optional config) none fields).map .putConfig
  | .GET_CONFIG => some .getConfig
  | .ENV => some .getEnv
  | .STATS => none
  | .SLEEP => (required "delay" int fields).map .sleep
  | .COLLECTIONS => (CollectionsMsg.validate fields).map .collections

def validatePython : Decoder Message
  | .map fields => do
    let id ← required "msg_id" int fields
    let type ← MsgType.ofInt id
    Message.validate fields type
  | _ => none

end Worker

end QJazz.Rpc
