import Mathlib.Data.List.DropRight
import QJazz.Lexical.Percent

/-! The path of a uri reference: what is left when the scheme, the host, the query and the fragment
are taken off. -/
namespace QJazz.Lexical
open List

def isDelimiter (c : Char) : Bool := decide (c = '/') || decide (c = '?') || decide (c = '#')

/-- The reference without its scheme, which is not empty and has no delimiter in it. -/
def dropScheme (s : Text) : Text :=
  let scheme := s.takeWhile fun c => !isDelimiter c && decide (c ≠ ':')
  match s.drop scheme.length with
  | ':' :: rest => if scheme = [] then s else rest
  | _ => s

def dropAuthority : Text → Text
  | '/' :: '/' :: s => s.dropWhile fun c => !isDelimiter c
  | s => s

def referencePath (s : Text) : Text :=
  (dropAuthority (dropScheme s)).takeWhile fun c => decide (c ≠ '?') && decide (c ≠ '#')

def lastSegment (path : Text) : Text := path.rtakeWhile (· ≠ '/')

def parentPath (path : Text) : Text := path.rdropWhile (· ≠ '/')

/-- A path that does not look like a host, without a query or a fragment. -/
structure Rooted (path : Text) : Prop where
  start : ∃ c rest, path = '/' :: c :: rest ∧ c ≠ '/'
  query : '?' ∉ path
  fragment : '#' ∉ path

structure Origin where
  scheme : Text
  host : Text
  path : Text
  scheme_ne_nil : scheme ≠ []
  scheme_plain : scheme.all (fun c => !isDelimiter c && decide (c ≠ ':')) = true
  host_plain : host.all (fun c => !isDelimiter c) = true
  path_start : path.head?.all (· = '/') = true
  path_query : '?' ∉ path
  path_fragment : '#' ∉ path

def Origin.text (o : Origin) : Text := o.scheme ++ "://".toList ++ o.host ++ o.path

/-- A byte of a segment, where everything but letters and digits is written as a percent code. -/
def encodeByte (b : ℕ) : Text :=
  if (Char.ofNat b).isAlphanum then [Char.ofNat b] else ['%', hexDigit (b / 16), hexDigit (b % 16)]

def percentEncode (s : Text) : Text := (Utf8.encode s).flatMap encodeByte

variable {path name s : Text} {b : ℕ} {c : Char}

lemma all_encodeByte : ∀ b : Fin 256,
    (encodeByte b).all (fun c => decide (c.toNat < 0x80) && !isDelimiter c) = true := by
  decide +kernel

lemma of_mem_percentEncode (hc : c ∈ percentEncode s) : c.toNat < 0x80 ∧ isDelimiter c = false := by
  obtain ⟨b, hb, hc⟩ := mem_flatMap.1 hc
  simpa using List.all_eq_true.1 (all_encodeByte ⟨b, Utf8.lt_of_mem_encode hb⟩) c hc

lemma notMem_percentEncode (hc : isDelimiter c) (s : Text) : c ∉ percentEncode s := by
  intro hm
  rw [(of_mem_percentEncode hm).2] at hc
  cases hc

lemma percentBytes_encodeByte (h : b < 256) (s : Text) :
    percentBytes (encodeByte b ++ s) = b :: percentBytes s := by
  rw [encodeByte]
  split
  next hl =>
    obtain ⟨hn, hne, -⟩ := unreserved_byte ⟨b, h⟩ (by simp [isUnreserved, hl])
    rw [singleton_append, percentBytes_of_ne hne]
    exact congrArg (· :: _) hn
  · rw [cons_append, cons_append, cons_append, nil_append,
      percentBytes_code (hexValue_hexDigit ⟨b / 16, by omega⟩) (hexValue_hexDigit ⟨b % 16, by omega⟩)]
    congr 1
    exact Nat.div_add_mod b 16

lemma unquote_percentEncode (s : Text) : unquote (percentEncode s) = s := by
  have hy (bs : List ℕ) (h : ∀ b ∈ bs, b < 256) : percentBytes (bs.flatMap encodeByte) = bs := by
    induction bs with
    | nil => rfl
    | cons b bs ih =>
      rw [flatMap_cons, percentBytes_encodeByte (h b mem_cons_self),
        ih fun b' hb' => h b' (mem_cons_of_mem _ hb')]
  rw [unquote_ascii fun c hc => (of_mem_percentEncode hc).1, percentEncode,
    hy _ fun b hb => Utf8.lt_of_mem_encode hb, Utf8.decode_encode]

lemma lastSegment_append (h : '/' ∉ name) (path : Text) :
    lastSegment (path ++ '/' :: name) = name := by
  have hn : ∀ c ∈ name.reverse, decide (c ≠ '/') = true :=
    fun c hc => decide_eq_true (ne_of_mem_of_not_mem (mem_reverse.1 hc) h)
  rw [lastSegment, List.rtakeWhile, reverse_append, reverse_cons, append_assoc,
    takeWhile_append_of_pos hn, singleton_append,
    takeWhile_cons_of_neg (by decide), append_nil, reverse_reverse]

lemma parentPath_append (h : '/' ∉ name) (path : Text) :
    parentPath (path ++ '/' :: name) = path ++ ['/'] := by
  have hn : ∀ c ∈ name.reverse, decide (c ≠ '/') = true :=
    fun c hc => decide_eq_true (ne_of_mem_of_not_mem (mem_reverse.1 hc) h)
  rw [parentPath, List.rdropWhile, reverse_append, reverse_cons, append_assoc,
    dropWhile_append_of_pos hn, singleton_append,
    dropWhile_cons_of_neg (by decide), reverse_cons, reverse_reverse]

lemma takeWhile_path (hq : '?' ∉ path) (hf : '#' ∉ path) (r : Text) :
    (path ++ r).takeWhile (fun c => decide (c ≠ '?') && decide (c ≠ '#')) =
      path ++ r.takeWhile fun c => decide (c ≠ '?') && decide (c ≠ '#') := by
  refine takeWhile_append_of_pos fun c hc => ?_
  rw [Bool.and_eq_true, decide_eq_true_eq, decide_eq_true_eq]
  exact ⟨ne_of_mem_of_not_mem hc hq, ne_of_mem_of_not_mem hc hf⟩

lemma Rooted.referencePath_append (h : Rooted path) (rest : Text) : referencePath (path ++ rest) =
      path ++ rest.takeWhile fun c => decide (c ≠ '?') && decide (c ≠ '#') := by
  obtain ⟨c, t, hp, hc⟩ := h.start
  have hscheme : dropScheme (path ++ rest) = path ++ rest := by
    rw [hp]
    rfl
  have hu : dropAuthority (path ++ rest) = path ++ rest := by
    rw [hp, cons_append, cons_append, dropAuthority]
    intro s hs
    cases hs
    exact hc rfl
  rw [referencePath, hscheme, hu, takeWhile_path h.query h.fragment]

lemma Rooted.referencePath_query (h : Rooted path) (q : Text) :
    referencePath (path ++ '?' :: q) = path := by
  rw [h.referencePath_append, takeWhile_cons_of_neg (by decide), append_nil]

namespace Origin

variable (o : Origin)

lemma dropScheme_text (r : Text) :
    dropScheme (o.text ++ r) = '/' :: '/' :: (o.host ++ o.path ++ r) := by
  have ht : o.text ++ r = o.scheme ++ ':' :: '/' :: '/' :: (o.host ++ o.path ++ r) := by
    simp [text]
  have hscheme :
      (o.text ++ r).takeWhile (fun c => !isDelimiter c && decide (c ≠ ':')) = o.scheme := by
    rw [ht, takeWhile_append_of_pos (List.all_eq_true.1 o.scheme_plain),
      takeWhile_cons_of_neg (by decide), append_nil]
  rw [dropScheme, hscheme, ht, drop_left]
  exact if_neg o.scheme_ne_nil

lemma dropAuthority_host {rest : Text} (h : rest.head? = some '/') :
    dropAuthority ('/' :: '/' :: (o.host ++ rest)) = rest := by
  obtain ⟨t, rfl⟩ := List.head?_eq_some_iff.1 h
  rw [dropAuthority, dropWhile_append_of_pos (List.all_eq_true.1 o.host_plain),
    dropWhile_cons_of_neg (by decide)]

lemma referencePath_text {path : Text} (hh : path.head? = some '/') (hq : '?' ∉ path)
    (hf : '#' ∉ path) : referencePath (o.text ++ path) = o.path ++ path := by
  have ht : (o.path ++ path).head? = some '/' := by
    have hp := o.path_start
    cases hr : o.path with
    | nil => exact hh
    | cons c f =>
      rw [hr] at hp
      simpa using hp
  have hm : '?' ∉ o.path ++ path := by simp [o.path_query, hq]
  have hha : '#' ∉ o.path ++ path := by simp [o.path_fragment, hf]
  rw [referencePath, o.dropScheme_text, append_assoc, o.dropAuthority_host ht]
  simpa using takeWhile_path hm hha []

end Origin

end QJazz.Lexical
