import QJazz.Lexical.StrFormat
import QJazz.Lexical.Url
import QJazz.Processes.AccessControl

/-! A callback is posted to the uri of a subscriber, formatted with the id of the job. The host that
is checked is the one of the uri before it is formatted. -/
namespace QJazz.Processes

open Lexical Url Template

/-- `SplitResult.hostname`: the host part without user and port, in lower case but for a zone. -/
def hostname (lower : Text → Text) (u : Url) : Option Text :=
  let hostinfo := (u.netloc.render.reverse.takeWhile (· ≠ '@')).reverse
  let bracketed := (hostinfo.dropWhile (· ≠ '[')).drop 1
  let host :=
    if '[' ∈ hostinfo then bracketed.takeWhile (· ≠ ']') else hostinfo.takeWhile (· ≠ ':')
  if host = [] then none
  else some (lower (host.takeWhile (· ≠ '%')) ++ host.dropWhile (· ≠ '%'))

/-- The validator `AnyHttpUrl`, `str.lower`, the resolution of names, and the text of a field other
than `job_id`, which is an expression on the job id or raises. -/
structure CallbackEnv where
  anyHttpUrl : Text → Bool
  lower : Text → Text
  resolution : Resolution
  expression : Text → Text → Option Text

namespace CallbackEnv

variable (env : CallbackEnv) (c : AccessControlConfig)

def fieldValue (jobId field : Text) : Option Text :=
  if field = "job_id".toList then some jobId else env.expression jobId field

def sendRequest (url : Url) (jobId : Text) : Option Text :=
  if env.anyHttpUrl url.geturl.render then
    (hostname env.lower url).bind fun host =>
      if c.checkHostname env.resolution host = some true then
        strFormat (env.fieldValue jobId) .literal url.geturl.render
      else none
  else none

variable {env c} {u : Url} {uri jobId url : Text}

lemma format_of_sendRequest (h : env.sendRequest c u jobId = some url) : u.netloc ≠ [] ∧
    strFormat (env.fieldValue jobId) .literal u.geturl.render = some url := by
  obtain ⟨-, h⟩ := Option.ite_none_right_eq_some.1 h
  obtain ⟨host, hh, h⟩ := Option.bind_eq_some_iff.1 h
  obtain ⟨-, h⟩ := Option.ite_none_right_eq_some.1 h
  refine ⟨?_, h⟩
  intro hn
  rw [hostname, hn] at hh
  cases hh

lemma var_notMem_front (uri : Text) (x : String) : .var x ∉ (urlsplit (ofText uri)).front := by
  have hn := var_notMem_urlsplit (t := ofText uri) (x := x) var_notMem_ofText
  simp only [front, slashes, List.mem_append, not_or] at hn ⊢
  refine ⟨?_, by simp, hn.1.1.1⟩
  split
  · exact List.not_mem_nil
  next hs =>
    rw [List.mem_append, not_or]
    refine ⟨fun hx => ?_, by simp⟩
    cases (isScheme_urlsplit hs).chars _ hx

lemma brace_notMem_front {b : Char} (hb : b = '{' ∨ b = '}')
    (h : b ∉ (urlsplit (ofText uri)).netloc.render) : b ∉ (urlsplit (ofText uri)).front.render := by
  rw [mem_render (var_notMem_front uri)]
  rw [mem_render fun x hx => var_notMem_front uri x (by simp [front, hx])] at h
  simp only [front, slashes, List.mem_append, not_or]
  refine ⟨?_, ?_, h⟩
  · split
    · exact List.not_mem_nil
    next hs =>
      rw [List.mem_append, not_or]
      constructor
      · intro hm
        have hc := (isScheme_urlsplit hs).chars _ hm
        rcases hb with rfl | rfl <;> exact absurd hc (by decide)
      · rcases hb with rfl | rfl <;> simp
  · rcases hb with rfl | rfl <;> simp

lemma head?_strFormat {v : Text → Option Text} {a : Template} {r : Text}
    (ha : a.head?.all Symbol.isDelim) (h : strFormat v .literal a.render = some r) :
    (ofText r).head?.all Symbol.isDelim = true := by
  cases a with
  | nil =>
    cases h
    rfl
  | cons b a =>
    have hb : b.isDelim := ha
    simp only [Symbol.isDelim, Bool.or_eq_true, decide_eq_true_eq] at hb
    rcases hb with (rfl | rfl) | rfl
    all_goals
      obtain ⟨r, -, rfl⟩ := Option.map_eq_some_iff.1 h
      rfl

lemma netloc_of_format {v : Text → Option Text} (hn : (urlsplit (ofText uri)).netloc ≠ [])
    (hb : '{' ∉ (urlsplit (ofText uri)).netloc.render ∧ '}' ∉ (urlsplit (ofText uri)).netloc.render)
    (h : strFormat v .literal (urlsplit (ofText uri)).geturl.render = some url) :
    (urlsplit (ofText url)).netloc = (urlsplit (ofText uri)).netloc := by
  rw [geturl_eq_front hn, render_append, strFormat_literal_append
    ⟨brace_notMem_front (.inl rfl) hb.1, brace_notMem_front (.inr rfl) hb.2⟩] at h
  obtain ⟨r, hr, rfl⟩ := Option.map_eq_some_iff.1 h
  have ho : ofText ((urlsplit (ofText uri)).front.render ++ r) =
      (urlsplit (ofText uri)).front ++ ofText r := by
    rw [ofText, List.map_append]
    exact congrArg (· ++ ofText r) (ofText_render (var_notMem_front uri))
  rw [ho]
  exact netloc_urlsplit_front (head?_strFormat (head?_rooted_append _) hr)

/-- Every name resolves to one address, and every address is allowed. -/
def openEnv : CallbackEnv where
  anyHttpUrl _ := true
  lower := id
  resolution := ⟨fun _ => none, fun _ => some [.v4 0]⟩
  expression jobId field :=
    if field = "job_id[0]".toList then jobId.head?.map fun c => [c] else none

end CallbackEnv
end QJazz.Processes
