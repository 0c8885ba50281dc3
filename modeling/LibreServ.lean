import LibreServ.AccountRetention
import LibreServ.AccountsKept
import LibreServ.AnswerSheets
import LibreServ.BackupRowsKept
import LibreServ.BackupScope
import LibreServ.BrowserPacks
import LibreServ.BuildGraphRuns
import LibreServ.CloudKeyChain
import LibreServ.CloudPacksKept
import LibreServ.CloudPublished
import LibreServ.CloudRewrapEnds
import LibreServ.CloudThinning
import LibreServ.ConnectCleared
import LibreServ.ConnectQuota
import LibreServ.Credits
import LibreServ.DbRestoreKept
import LibreServ.DiagramKept
import LibreServ.DocSyncKept
import LibreServ.DriveClock
import LibreServ.ExposurePaths
import LibreServ.FeedReceivers
import LibreServ.FormsKept
import LibreServ.Forwarding
import LibreServ.Grants
import LibreServ.JobRetries
import LibreServ.JobsFinished
import LibreServ.Listings
import LibreServ.MemoryPages
import LibreServ.MonthBill
import LibreServ.OfficeContinuity
import LibreServ.OfficeReaders
import LibreServ.OsSlotsSafe
import LibreServ.PhraseKeeps
import LibreServ.PortsKept
import LibreServ.PrivatePaths
import LibreServ.PrivateSessionsOpened
import LibreServ.PurgeEnds
import LibreServ.ReconcileKept
import LibreServ.RecordVersions
import LibreServ.Recording
import LibreServ.ReleaseCutRuns
import LibreServ.RestoreAppWhole
import LibreServ.SavesKept
import LibreServ.ScopesPending
import LibreServ.SearchDates
import LibreServ.SearchRanges
import LibreServ.SecondFactorsSpent
import LibreServ.SessionTokensExact
import LibreServ.ShareEgress
import LibreServ.SignOnKept
import LibreServ.SyncSettles
import LibreServ.TextEdits
import LibreServ.TrashNames
import LibreServ.TypoDistance
import LibreServ.UploadsProgress
import LibreServ.Versions
