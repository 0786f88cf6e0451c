import Kdns.Lib.ByteStream

namespace Kdns.Dns

open ByteStream

abbrev RRType := UInt16

def typeA : RRType := 1
def typeNS : RRType := 2
def typeCNAME : RRType := 5
def typeSOA : RRType := 6
def typePTR : RRType := 12
def typeMX : RRType := 15
def typeTXT : RRType := 16
def typeAAAA : RRType := 28
def typeSRV : RRType := 33
def typeOPT : RRType := 41
def typeDS : RRType := 43
def typeRRSIG : RRType := 46
def typeNSEC : RRType := 47
def typeDNSKEY : RRType := 48
def typeNSEC3 : RRType := 50
def typeZONEMD : RRType := 63
def typeTSIG : RRType := 250
def typeANY : RRType := 255
def typeCAA : RRType := 257

def classIN : UInt16 := 1
def classCH : UInt16 := 3
def classNONE : UInt16 := 254
def classANY : UInt16 := 255

structure RRSet where
  rdata : List Bytes
  ttl : UInt32
  type : RRType
  rrClass : UInt16
  deriving DecidableEq, Repr

abbrev RRSets := List RRSet

def RRSet.empty : RRSet := ⟨[], 0, 0, 0⟩

def RRSet.hasRecords (s : RRSet) : Bool := !s.rdata.isEmpty

def ClassIN (records : RRSets) : Prop := ∀ s ∈ records, s.rrClass = classIN

instance (records : RRSets) : Decidable (ClassIN records) :=
  inferInstanceAs (Decidable (∀ s ∈ records, s.rrClass = classIN))

inductive RCode where
  | success
  | formatError
  | serverFailure
  | nameError
  | notImplemented
  | refused
  | yxDomain
  | yxRRSet
  | nxRRSet
  | notAuth
  | notZone
  deriving DecidableEq, Repr

def RCode.code : RCode → ℕ
  | .success => 0
  | .formatError => 1
  | .serverFailure => 2
  | .nameError => 3
  | .notImplemented => 4
  | .refused => 5
  | .yxDomain => 6
  | .yxRRSet => 7
  | .nxRRSet => 8
  | .notAuth => 9
  | .notZone => 10

theorem RCode.code_lt (r : RCode) : r.code < 16 := by cases r <;> decide

theorem RCode.eq_of_code {r r' : RCode} (h : r.code = r'.code) : r = r' := by
  cases r <;> cases r' <;> first | rfl | cases h

structure Result where
  rcode : RCode
  answer : RRSet := RRSet.empty
  authority : RRSet := RRSet.empty
  authorityName : Bytes := []
  deriving DecidableEq, Repr

def Result.hasAnswer (r : Result) : Bool := r.answer.hasRecords

def Result.hasAuthority (r : Result) : Bool := r.authority.hasRecords

end Kdns.Dns
