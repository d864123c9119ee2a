import LsmStore.Arena.Client
import LsmStore.Block.Encoding
import LsmStore.Block.Iterator
import LsmStore.Block.Session
import LsmStore.Coding.Decoder
import LsmStore.Main
import LsmStore.MemTable.History
import LsmStore.MemTable.Session
import LsmStore.SkipList.Session
import LsmStore.Proofs.SkipList.Insertion
import LsmStore.Proofs.SkipList.SortedSet
import LsmStore.Proofs.SkipList.Classes
import LsmStore.Proofs.SkipList.LiveCursors
import LsmStore.Proofs.SkipList.Lookups
import LsmStore.Proofs.SkipList.LiveIterators
import LsmStore.Proofs.SkipList.Towers
import LsmStore.Proofs.SkipList.Heights
import LsmStore.Proofs.Arena.Containment
import LsmStore.Proofs.Arena.Disjoint
import LsmStore.Proofs.Arena.Clients
import LsmStore.Proofs.Arena.Waste
import LsmStore.Proofs.Comparator
import LsmStore.Proofs.StoredKeys
import LsmStore.Proofs.VersionOrder
import LsmStore.Proofs.LookupKeys
import LsmStore.Proofs.MemTable.Records
import LsmStore.Proofs.MemTable.Reads
import LsmStore.Proofs.MemTable.Versions
import LsmStore.Proofs.MemTable.Snapshots
import LsmStore.Proofs.MemTable.Tallies
import LsmStore.Proofs.MemTable.Footprint
import LsmStore.Proofs.MemTable.Suffixes
import LsmStore.Proofs.MemTable.Flush
import LsmStore.Proofs.MemTable.Iteration
import LsmStore.Proofs.Block.EagerWalk
import LsmStore.Proofs.Block.LazyKeys
import LsmStore.Proofs.Block.Iteration
import LsmStore.Proofs.Block.Layout
import LsmStore.Proofs.Block.LinearScan
import LsmStore.Proofs.Block.Truncation
import LsmStore.Proofs.Block.Indexed.Safety
import LsmStore.Proofs.Block.RoundTrip
import LsmStore.Proofs.Coding.Numerals
import LsmStore.Proofs.Coding.InPlace
import LsmStore.Proofs.Coding.Acceptance
import LsmStore.Proofs.Coding.ShortestForms
import LsmStore.Proofs.Coding.Streams
import LsmStore.Proofs.Block.Grammar
import LsmStore.Proofs.Block.UntrustedSearch
import LsmStore.Proofs.Block.HeaderCount
import LsmStore.Proofs.Block.GroupSearch
import LsmStore.Proofs.Block.KeyCost
import LsmStore.Proofs.Text.Shown
import LsmStore.Proofs.Inspector
import LsmStore.Proofs.ShownEntries
