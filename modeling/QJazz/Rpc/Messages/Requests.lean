import QJazz.Rpc.Messages.Worker

/-! The two sides declare the messages independently. They agree but for the spelling of one method,
an url that may be absent on one side only, and the kinds of JSON value a configuration patch may
be. -/
namespace QJazz.Rpc
open Msgpack Decoder

namespace Gateway

def OwsRequestMsg.toWorker (m : OwsRequestMsg) : Worker.OwsRequestMsg where
  service := m.service
  request := m.request
  target := m.target
  url := m.url
  version := m.version
  direct := m.direct
  options := m.options
  headers := m.headers
  requestId := m.requestId
  headerPrefix := m.headerPrefix
  contentType := m.contentType
  method := m.method
  body := m.body
  sendReport := m.sendReport

def ApiRequestMsg.toWorker (m : ApiRequestMsg) (url : String) : Worker.ApiRequestMsg where
  name := m.name
  path := m.path
  method := m.method
  url := url
  data := m.data
  delegate := m.delegate
  target := m.target
  direct := m.direct
  options := m.options
  headers := m.headers
  requestId := m.requestId
  headerPrefix := m.headerPrefix
  contentType := m.contentType
  sendReport := m.sendReport

end Gateway

def Worker.Config.toValue : Option Worker.Config → Value
  | none => .nil
  | some (.dict fields) => .map fields
  | some (.text s) => .str s

def SameMessage : Gateway.Message → Worker.Message → Prop
  | .ping echo, .ping echo' => echo' = some echo
  | .owsRequest m, .owsRequest m' => m' = m.toWorker
  | .apiRequest m, .apiRequest m' => ∃ url, m.url = some url ∧ m' = m.toWorker url
  | .checkoutProject uri pull, .checkoutProject uri' pull' => uri' = uri ∧ pull' = pull
  | .dropProject uri, .dropProject uri' => uri' = uri
  | .clearCache, .clearCache => True
  | .listCache, .listCache statusFilter => statusFilter = none
  | .updateCache, .updateCache => True
  | .getProjectInfo uri, .getProjectInfo uri' => uri' = uri
  | .plugins, .plugins => True
  | .catalog location, .catalog location' => location' = location
  | .putConfig config, .putConfig config' => Worker.Config.toValue config' = .ofJson config
  | .getConfig, .getConfig => True
  | .getEnv, .getEnv => True
  | .sleep delay, .sleep delay' => delay' = delay
  | .collections m, .collections m' =>
    m' = ⟨m.location, m.resource, m.start, m.stop⟩
  | _, _ => False

def Patchable : Json → Prop
  | .null | .str _ | .obj _ => True
  | .bool _ | .num _ | .arr _ => False

/-- The messages both declarations have room for. -/
def Gateway.Message.Common : Gateway.Message → Prop
  | .owsRequest m => m.method ≠ some .DELETE
  | .apiRequest m => m.method ≠ .DELETE ∧ m.url ≠ none
  | .putConfig config => Patchable config
  | _ => True

variable {f : Fields}

lemma text_inverts : Inverts Worker.text Gateway.text := str_inverts.optional nofun

lemma headerList_inverts : Inverts Worker.headerList Gateway.headerList :=
  (str_inverts.pair str_inverts).list

lemma body_inverts : Inverts (optional bytes) (Value.ofOption .bin) := bytes_inverts.optional nofun

lemma text_str (s : String) : Worker.text (.str s) = some (some s) := rfl

lemma httpMethod_name (m : HTTPMethod) :
    Worker.httpMethod (.str m.name) = if m = .DELETE then none else some m := by
  cases m <;> rfl

lemma httpMethod_optional (o : Option HTTPMethod) :
    optional Worker.httpMethod (Value.ofOption (fun m : HTTPMethod => .str m.name) o) =
      if o = some .DELETE then none else some o := by
  cases o with
  | none => rfl
  | some m =>
    show (Worker.httpMethod (.str m.name)).map some = _
    rw [httpMethod_name]
    by_cases h : m = .DELETE
    · simp [h]
    · simp [h]

lemma str_text (o : Option String) : str (Gateway.text o) = o := by
  cases o <;> rfl

lemma validate_owsRequest (m : Gateway.OwsRequestMsg) (id : Value) :
    Worker.OwsRequestMsg.validate (("msg_id", id) :: m.fields) =
      if m.method = some .DELETE then none else some m.toWorker := by
  by_cases h : m.method = some .DELETE
  · simp [Worker.OwsRequestMsg.validate, Gateway.OwsRequestMsg.fields, httpMethod_optional, h]
  · simp [Worker.OwsRequestMsg.validate, Gateway.OwsRequestMsg.fields, Gateway.OwsRequestMsg.toWorker,
      text_inverts _, headerList_inverts _, body_inverts _, httpMethod_optional, h]

lemma validate_apiRequest (m : Gateway.ApiRequestMsg) (id : Value) :
    Worker.ApiRequestMsg.validate (("msg_id", id) :: m.fields) =
      if m.method = .DELETE then none else m.url.map m.toWorker := by
  by_cases h : m.method = .DELETE
  · simp [Worker.ApiRequestMsg.validate, Gateway.ApiRequestMsg.fields, httpMethod_name, h]
  · simp [Worker.ApiRequestMsg.validate, Gateway.ApiRequestMsg.fields, Gateway.ApiRequestMsg.toWorker,
      text_inverts _, headerList_inverts _, body_inverts _, httpMethod_name, str_text, h,
      Option.map_eq_bind, Function.comp_def]

lemma config_ofJson (j : Json) : (∃ c, optional Worker.config (.ofJson j) = some c ∧
    Worker.Config.toValue c = .ofJson j) ↔ Patchable j := by
  cases j with
  | null => exact ⟨fun _ => trivial, fun _ => ⟨none, rfl, rfl⟩⟩
  | str s => exact ⟨fun _ => trivial, fun _ => ⟨some (.text s), rfl, rfl⟩⟩
  | obj f => exact ⟨fun _ => trivial, fun _ => ⟨some (.dict _), rfl, rfl⟩⟩
  | bool b | arr i =>
    refine ⟨?_, False.elim⟩
    rintro ⟨c, hc, -⟩
    cases hc
  | num q =>
    refine ⟨?_, False.elim⟩
    rintro ⟨c, hc, -⟩
    simp only [Value.ofJson, Value.ofNum] at hc
    split at hc <;> cases hc

lemma validatePython_encode (m : Gateway.Message) : Worker.validatePython m.encode =
    (Worker.MsgType.ofInt m.msgId).bind
      (Worker.Message.validate (("msg_id", .int m.msgId) :: m.fields)) := by
  simp [Worker.validatePython, Gateway.Message.encode]

/-- The worker understands a message of the gateway exactly when its method is spelled alike on both
sides, its url is there if the worker wants one, and its patch is an object, a text or absent. -/
theorem validatePython_iff_common (m : Gateway.Message) :
    (∃ w, Worker.validatePython m.encode = some w ∧ SameMessage m w) ↔ m.Common := by
  rw [validatePython_encode]
  cases m with
  | owsRequest m =>
    show (∃ w, (Worker.OwsRequestMsg.validate (("msg_id", _) :: m.fields)).map .owsRequest = some w ∧
      SameMessage (.owsRequest m) w) ↔ m.method ≠ some .DELETE
    rw [validate_owsRequest]
    by_cases h : m.method = some .DELETE
    · simp [h]
    · simp [h, SameMessage]
  | apiRequest m =>
    show (∃ w, (Worker.ApiRequestMsg.validate (("msg_id", _) :: m.fields)).map .apiRequest = some w ∧
      SameMessage (.apiRequest m) w) ↔ m.method ≠ .DELETE ∧ m.url ≠ none
    rw [validate_apiRequest]
    by_cases h : m.method = .DELETE
    · simp [h]
    · cases hurl : m.url with
      | none => simp [h]
      | some url => simp [h, hurl, SameMessage]
  | putConfig c =>
    rw [Gateway.Message.Common, ← config_ofJson]
    simp [Gateway.Message.msgId, Gateway.Message.fields, Worker.MsgType.ofInt, Worker.Message.validate,
      SameMessage]
  | ping _ | checkoutProject _ _ | dropProject _ | clearCache | listCache | updateCache
  | getProjectInfo _ | plugins | catalog _ | getConfig | getEnv | sleep _ | collections _ =>
    simp [Gateway.Message.msgId, Gateway.Message.fields, Worker.MsgType.ofInt, Worker.Message.validate,
      Worker.CollectionsMsg.validate, SameMessage, Gateway.Message.Common, text_inverts _, text_str]

def deletion : Gateway.ApiRequestMsg where
  name := "wfs3"
  path := "/collections/roads/items/1"
  method := .DELETE
  url := some "http://localhost/"
  data := none
  delegate := false
  target := some "/roads"
  direct := false
  options := none
  headers := []
  requestId := none
  headerPrefix := some "x-reply-header-"
  contentType := none
  sendReport := false

/-- The worker rejects a deletion, a request without url and a patch that is a list. -/
theorem not_validatePython_deletion :
    Worker.validatePython (Gateway.Message.apiRequest deletion).encode = none ∧
    Worker.validatePython (Gateway.Message.apiRequest
      { deletion with method := .GET, url := none }).encode = none ∧
    Worker.validatePython (Gateway.Message.putConfig (.arr [])).encode = none :=
  ⟨rfl, rfl, rfl⟩

end QJazz.Rpc
