import Coms4111.Sql.Text
import Coms4111.Sql.Concat
import Coms4111.Sql.Table
import Coms4111.Sql.Join
import Coms4111.Sql.Proc
import Coms4111.Sql.Lexer
import Coms4111.Store.ReadThrough
import Coms4111.Store.Counter
import Coms4111.Store.Refinement
import Coms4111.Store.Serial
import Coms4111.Store.Listing
import Coms4111.Store.Cursor
import Coms4111.Store.Bytes
import Coms4111.Spec.Bank
import Coms4111.Spec.School
import Coms4111.Spec.Stories
import Coms4111.Spec.Staff
import Coms4111.Spec.Powerset
import Coms4111.Spec.Players
import Coms4111.Spec.Csv
import Coms4111.Spec.Dict
import Coms4111.Spec.Ziplist
import Coms4111.Spec.Hash
import Coms4111.Spec.Sds
import Coms4111.Spec.Protocol
import Coms4111.Spec.Jedis
import Coms4111.Proof.Transfer
import Coms4111.Proof.Conservation
import Coms4111.Proof.Limits
import Coms4111.Proof.Interleaving
import Coms4111.Proof.AccountIds
import Coms4111.Proof.Log
import Coms4111.Proof.Statements
import Coms4111.Proof.Outcomes
import Coms4111.Proof.Atomicity
import Coms4111.Proof.Inheritance
import Coms4111.Proof.Framing
import Coms4111.Proof.Sections
import Coms4111.Proof.Teaching
import Coms4111.Proof.FacultyCourse
import Coms4111.Proof.Capacity
import Coms4111.Proof.Numbers
import Coms4111.Proof.CourseIds
import Coms4111.Proof.SectionKeys
import Coms4111.Proof.Registration
import Coms4111.Proof.Enrollment
import Coms4111.Proof.Admission
import Coms4111.Proof.Completed
import Coms4111.Proof.Prerequisites
import Coms4111.Proof.Stories
import Coms4111.Proof.UserIds
import Coms4111.Proof.Hiring
import Coms4111.Proof.Refusals
import Coms4111.Proof.Powerset
import Coms4111.Proof.Players
import Coms4111.Proof.PlayersCalls
import Coms4111.Proof.Injection
import Coms4111.Proof.CsvKeys
import Coms4111.Proof.CsvProcesses
import Coms4111.Proof.CsvRoundTrip
import Coms4111.Proof.CsvSearch
import Coms4111.Proof.CommandLine
import Coms4111.Proof.Rehash
import Coms4111.Proof.Dict
import Coms4111.Proof.Load
import Coms4111.Proof.Scan
import Coms4111.Proof.Decimal
import Coms4111.Proof.Requests
import Coms4111.Proof.QueryBuffer
import Coms4111.Proof.Inline
import Coms4111.Proof.ZiplistEntry
import Coms4111.Proof.ZiplistLayout
import Coms4111.Proof.ZiplistInsert
import Coms4111.Proof.ZiplistDelete
import Coms4111.Proof.ZiplistWalk
import Coms4111.Proof.Ziplist
import Coms4111.Proof.HashType
import Coms4111.Proof.Hash
import Coms4111.Proof.Jedis
