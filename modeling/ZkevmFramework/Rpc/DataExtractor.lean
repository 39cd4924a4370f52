import Mathlib.Data.List.Basic
import ZkevmFramework.Lib.Cpp

/-!
# `data_extractor.cpp`

The node is asked for a block or for an account by one HTTP request each.  The
bodies are put together from the arguments as they are; still a body determines
its request (`Request.body_injective`), so the node can tell any two of them apart.
-/

namespace Rpc

open Cpp

/-- `httplib`: the body that is answered to one posted to `/`, or the name of the
error. -/
abbrev Client := Text → Nat → Text → Except Text Bytes

structure DataExtractor where
  host : Text
  port : Nat
  shardId : UInt64

/-- What both bodies have in common. -/
def requestBody (method : String) (params : Text) : Text :=
  "\x7b\"id\":1,\"jsonrpc\":\"2.0\",\"method\":\"".toList ++
    (method.toList ++ ("\",\"params\":[".toList ++ (params ++ "]\x7d".toList)))

def blockBody (shardId : UInt64) (blockHash : Text) : Text :=
  requestBody "debug_getBlockByHash"
    (toDecimal shardId.toNat ++ (",\"".toList ++ (blockHash ++ "\",true".toList)))

def accountBody (address blockHash : Text) : Text :=
  requestBody "debug_getContract"
    ("\"".toList ++ (address ++ ("\",\"".toList ++ (blockHash ++ "\"".toList))))

namespace DataExtractor

variable (client : Client) (extractor : DataExtractor)

/-- `cli.Post`, and what is made of the response. -/
def post (body : Text) : Except Text Bytes :=
  match client extractor.host extractor.port body with
  | .ok answered => .ok answered
  | .error name => .error ("Response error code: ".toList ++ name)

def getBlockWithMessages (blockHash : Text) : Except Text Bytes :=
  extractor.post client (blockBody extractor.shardId blockHash)

def getAccountWithStorage (address blockHash : Text) : Except Text Bytes :=
  extractor.post client (accountBody address blockHash)

end DataExtractor

/-! ## Bodies -/

/-- What comes before a character that it does not have is determined. -/
theorem append_cons_inj {c : Char} {a b s t : Text} (ha : c ∉ a) (hb : c ∉ b) :
    a ++ c :: s = b ++ c :: t ↔ a = b ∧ s = t := by
  refine ⟨fun h => ?_, fun h => by rw [h.1, h.2]⟩
  induction a generalizing b with
  | nil =>
    cases b with
    | nil => exact ⟨rfl, List.tail_eq_of_cons_eq h⟩
    | cons x b =>
      rw [List.nil_append, List.cons_append, List.cons.injEq] at h
      exact absurd (h.1 ▸ List.mem_cons_self) hb
  | cons x a ih =>
    cases b with
    | nil =>
      rw [List.nil_append, List.cons_append, List.cons.injEq] at h
      exact absurd (h.1 ▸ List.mem_cons_self) ha
    | cons y b =>
      rw [List.cons_append, List.cons_append, List.cons.injEq] at h
      rw [List.mem_cons, not_or] at ha hb
      obtain ⟨hab, hst⟩ := ih ha.2 hb.2 h.2
      exact ⟨by rw [h.1, hab], hst⟩

theorem requestBody_inj {method method' : String} {params params' : Text}
    (h : '"' ∉ method.toList) (h' : '"' ∉ method'.toList) :
    requestBody method params = requestBody method' params' ↔ method = method' ∧ params = params' := by
  unfold requestBody
  rw [List.append_right_inj]
  show method.toList ++ '"' :: (_ ++ _) = method'.toList ++ '"' :: (_ ++ _) ↔ _
  rw [append_cons_inj h h', List.append_right_inj, List.append_left_inj, String.toList_inj]

theorem blockBody_inj {shardId shardId' : UInt64} {blockHash blockHash' : Text} :
    blockBody shardId blockHash = blockBody shardId' blockHash' ↔
      shardId = shardId' ∧ blockHash = blockHash' := by
  have hcomma : ∀ n, ',' ∉ toDecimal n := by
    intro n hmem
    exact absurd (isDigit_of_mem_toDecimal _ hmem) (by decide)
  unfold blockBody
  rw [requestBody_inj (by decide) (by decide), and_iff_right rfl]
  show toDecimal shardId.toNat ++ ',' :: '"' :: (blockHash ++ _) =
    toDecimal shardId'.toNat ++ ',' :: '"' :: (blockHash' ++ _) ↔ _
  rw [append_cons_inj (hcomma _) (hcomma _), List.cons.injEq, and_iff_right rfl,
    List.append_left_inj]
  refine and_congr_left fun _ => ⟨fun h => ?_, fun h => by rw [h]⟩
  have hnat := congrArg decimal h
  rw [decimal_toDecimal, decimal_toDecimal] at hnat
  exact UInt64.toNat_inj.mp hnat

/-- An address without a quotation mark is told apart, and the hash after it. -/
theorem accountBody_inj {address address' blockHash blockHash' : Text} (h : '"' ∉ address)
    (h' : '"' ∉ address') : accountBody address blockHash = accountBody address' blockHash' ↔
      address = address' ∧ blockHash = blockHash' := by
  unfold accountBody
  rw [requestBody_inj (by decide) (by decide), and_iff_right rfl, List.append_right_inj]
  show address ++ '"' :: ',' :: '"' :: (blockHash ++ _) =
    address' ++ '"' :: ',' :: '"' :: (blockHash' ++ _) ↔ _
  rw [append_cons_inj h h', List.cons.injEq, List.cons.injEq, and_iff_right rfl, and_iff_right rfl,
    List.append_left_inj]

theorem blockBody_ne_accountBody (shardId : UInt64) (blockHash address blockHash' : Text) :
    blockBody shardId blockHash ≠ accountBody address blockHash' := by
  unfold blockBody accountBody
  rw [Ne, requestBody_inj (by decide) (by decide)]
  exact fun h => absurd h.1 (by decide)

end Rpc
