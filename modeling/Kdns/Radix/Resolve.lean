import Kdns.Radix.Tree

namespace Kdns.Radix

open ByteStream Dns

def searchRRSet (node : Node) (qt : RRType) : Option RRSet := node.rrsets.find? fun s => s.type = qt

theorem type_of_find {rs : RRSets} {qt : RRType} {s : RRSet} (h : (rs.find? fun s => s.type = qt) = some s) :
    s.type = qt := by
  simpa using List.find?_some h

def formatDomainName (domain : Bytes) (cursor : ℕ) : Bytes :=
  if cursor = domain.length then [dot]
  else if cursor > 0 then domain.drop (cursor + 1)
  else domain

structure Enclosing where
  soaRR : RRSet
  soaName : Bytes

def evaluateNode (node : Node) (qt : RRType) (domain : Bytes) (cursor : ℕ) (soa : Enclosing) :
    Except Result Enclosing :=
  if node.rrsets = [] then .ok soa
  else
    match searchRRSet node typeSOA with
    | some s => .ok ⟨s, formatDomainName domain cursor⟩
    | none =>
      match searchRRSet node typeNS with
      | some ns =>
        if qt ≠ typeDS ∨ cursor ≠ 0 then .error ⟨.success, .empty, ns, formatDomainName domain cursor⟩
        else .ok soa
      | none => .ok soa

def resolveAtNode (node : Node) (qt : RRType) (soa : Enclosing) : Result :=
  if h : qt = typeANY ∧ node.rrsets ≠ [] then ⟨.success, node.rrsets.head h.2, .empty, []⟩
  else
    match searchRRSet node qt with
    | some rr => ⟨.success, rr, .empty, []⟩
    | none =>
      match if qt ≠ typeCNAME then searchRRSet node typeCNAME else none with
      | some cname => ⟨.success, cname, .empty, []⟩
      | none => ⟨.success, .empty, soa.soaRR, soa.soaName⟩

def wildcardResolve (fallback : Option Node) (qt : RRType) (soa : Enclosing) : Result :=
  match fallback with
  | none => ⟨.nameError, .empty, soa.soaRR, soa.soaName⟩
  | some node =>
    if node.rrsets = [] then ⟨.nameError, .empty, soa.soaRR, soa.soaName⟩ else resolveAtNode node qt soa

def resolveFrom (qt : RRType) (domain : Bytes) (node : Node) (fallback : Option Node) (soa : Enclosing) :
    List (Bytes × ℕ) → Result
  | [] =>
    if node.bare then wildcardResolve fallback qt soa
    else resolveAtNode node qt soa
  | (label, cursor) :: rest =>
    let fallback := node.wildcard.or fallback
    match if label = star then node.wildcard else followEdge node.children label with
    | none => wildcardResolve fallback qt soa
    | some next =>
      match evaluateNode next qt domain cursor soa with
      | .error res => res
      | .ok soa => resolveFrom qt domain next fallback soa rest

def Tree.resolve (t : Tree) (domain : Bytes) (qt : RRType) : Result :=
  match evaluateNode t.root qt domain domain.length ⟨.empty, [dot]⟩ with
  | .error res => res
  | .ok soa => resolveFrom qt domain t.root none soa (steps domain)

end Kdns.Radix
